import Mathlib.Data.List.Infix

/-! A tree of directories, files and symbolic links, and the way an operating
system reads a path in it: component by component, every link replaced by its
target, with a bound on the links of one path. -/
namespace Atlas.Files
open List

inductive Name where
  | text (chars : List Char)
  | bytes (raw : List Nat)
  deriving DecidableEq

inductive Component where
  | here
  | up
  | child (name : Name)
  deriving DecidableEq

structure Target where
  absolute : Bool
  components : List Component
  deriving DecidableEq

inductive Entry where
  | dir
  | file
  | link (target : Target)
  deriving DecidableEq

/-- The names on the way down from the top, with no link among them. -/
abbrev Location := List Name

structure FileSystem where
  entry : Location → Option Entry
  top : entry [] = some .dir
  parent : ∀ {loc : Location} {name : Name}, entry (loc ++ [name]) ≠ none → entry loc = some .dir

def listed (entries : List (Location × Entry)) (loc : Location) : Option Entry :=
  if loc = [] then some .dir else (entries.find? fun item => item.1 = loc).map Prod.snd

def FileSystem.ofEntries (entries : List (Location × Entry))
    (closed : ∀ item ∈ entries, listed entries item.1.dropLast = some .dir) : FileSystem where
  entry := listed entries
  top := rfl
  parent {loc name} present := by
    unfold listed at present
    rw [if_neg (append_ne_nil_of_right_ne_nil loc (cons_ne_nil name []))] at present
    cases found : entries.find? fun item => item.1 = loc ++ [name] with
    | none =>
      rw [found] at present
      exact absurd rfl present
    | some item =>
      have same := find?_some found
      rw [decide_eq_true_eq] at same
      have above := closed item (mem_of_find?_eq_some found)
      rwa [same, dropLast_concat] at above

inductive Walk where
  | arrived (loc : Location)
  | missing
  | crossing (dir : Location) (target : Target) (rest : List Component)

def Target.start (target : Target) (dir : Location) : Location :=
  if target.absolute then [] else dir

section
variable (files : FileSystem)

def walk : Location → List Component → Walk
  | loc, [] => .arrived loc
  | loc, step :: rest =>
    if files.entry loc = some .dir then
      match step with
      | .here => walk loc rest
      | .up => walk loc.dropLast rest
      | .child name =>
        match files.entry (loc ++ [name]) with
        | none => .missing
        | some (.link target) => .crossing loc target rest
        | some _ => walk (loc ++ [name]) rest
    else .missing

def follow (links : Nat) (loc : Location) (path : List Component) : Option (Nat × Location) :=
  match walk files loc path with
  | .arrived found => some (links, found)
  | .missing => none
  | .crossing dir target rest =>
    match links with
    | 0 => none
    | left + 1 => follow left (target.start dir) (target.components ++ rest)

/-- The bound that Linux sets. -/
def maxLinks : Nat := 40
def reach (path : List Component) : Option Location := (follow files maxLinks [] path).map Prod.snd

variable {files} {links left : Nat} {loc mid found : Location} {path rest : List Component}

variable (files) in
theorem walk_append (loc : Location) (path rest : List Component) : walk files loc (path ++ rest) =
      match walk files loc path with
      | .arrived mid => walk files mid rest
      | .missing => .missing
      | .crossing dir target after => .crossing dir target (after ++ rest) := by
  induction path generalizing loc with
  | nil => rfl
  | cons step path ih =>
    simp only [cons_append, walk]
    by_cases isDir : files.entry loc = some .dir
    · rw [if_pos isDir, if_pos isDir]
      cases step with
      | here => exact ih loc
      | up => exact ih _
      | child name =>
        simp only
        cases files.entry (loc ++ [name]) with
        | none => rfl
        | some entry =>
          cases entry with
          | dir | file => exact ih _
          | link target => rfl
    · rw [if_neg isDir, if_neg isDir]

theorem follow_of_arrived (arrived : walk files loc path = .arrived found) :
    follow files links loc path = some (links, found) := by
  unfold follow
  rw [arrived]

theorem follow_of_missing (missing : walk files loc path = .missing) :
    follow files links loc path = none := by
  unfold follow
  rw [missing]

variable {dir : Location}
  {target : Target} {after : List Component} {name : Name} {names : List Name}

theorem follow_of_crossing (crossing : walk files loc path = .crossing dir target after) :
    follow files (left + 1) loc path =
      follow files left (target.start dir) (target.components ++ after) := by
  conv_lhs => unfold follow
  rw [crossing]

theorem follow_of_crossing_zero (crossing : walk files loc path = .crossing dir target after) :
    follow files 0 loc path = none := by
  unfold follow
  rw [crossing]

theorem follow_append (links : Nat) (loc : Location) (path rest : List Component) :
    follow files links loc (path ++ rest) =
      (follow files links loc path).bind fun stop => follow files stop.1 stop.2 rest := by
  have whole := walk_append files loc path rest
  induction links generalizing loc path with
  | zero =>
    cases first : walk files loc path with
    | arrived mid =>
      rw [first] at whole
      rw [follow_of_arrived first, Option.bind_some]
      unfold follow
      rw [whole]
    | missing =>
      rw [first] at whole
      rw [follow_of_missing first, follow_of_missing whole, Option.bind_none]
    | crossing dir target after =>
      rw [first] at whole
      rw [follow_of_crossing_zero first, follow_of_crossing_zero whole, Option.bind_none]
  | succ links ih =>
    cases first : walk files loc path with
    | arrived mid =>
      rw [first] at whole
      rw [follow_of_arrived first, Option.bind_some]
      unfold follow
      rw [whole]
    | missing =>
      rw [first] at whole
      rw [follow_of_missing first, follow_of_missing whole, Option.bind_none]
    | crossing dir target after =>
      rw [first] at whole
      rw [follow_of_crossing first, follow_of_crossing whole, ← append_assoc]
      exact ih _ _ (walk_append _ _ _ _)

theorem follow_here (child : Name) : follow files links loc (.here :: .child child :: rest) =
    follow files links loc (.child child :: rest) := by
  have same : walk files loc (.here :: .child child :: rest) = walk files loc (.child child :: rest) := by
    simp only [walk]
    by_cases isDir : files.entry loc = some .dir
    · rw [if_pos isDir]
    · rw [if_neg isDir, if_neg isDir]
  unfold follow
  rw [same]

def children (names : List Name) : List Component := names.map .child

theorem children_append (before after : List Name) :
    children (before ++ after) = children before ++ children after := map_append

theorem follow_child (entered : follow files links loc [.child name] = some (left, found)) :
    (∃ target, files.entry (loc ++ [name]) = some (.link target)) ∨
      walk files loc [.child name] = .arrived (loc ++ [name]) ∧ found = loc ++ [name] := by
  by_cases isDir : files.entry loc = some .dir
  · cases content : files.entry (loc ++ [name]) with
    | none =>
      have missing : walk files loc [.child name] = .missing := by simp only [walk, if_pos isDir, content]
      rw [follow_of_missing missing] at entered
      cases entered
    | some entry =>
      have arrives (plain : ∀ target, entry ≠ .link target) : walk files loc [.child name] = .arrived (loc ++ [name]) := by
        cases entry with
        | dir | file => simp only [walk, if_pos isDir, content]
        | link target => exact absurd rfl (plain target)
      cases entry with
      | link target => exact .inl ⟨target, rfl⟩
      | dir | file =>
        have arrived := arrives fun target same => by cases same
        rw [follow_of_arrived arrived] at entered
        cases entered
        exact .inr ⟨arrived, rfl⟩
  · have missing : walk files loc [.child name] = .missing := by
      simp only [walk, if_neg isDir]
    rw [follow_of_missing missing] at entered
    cases entered

/-- The last name of a walk at which a link was followed, and where it led. -/
structure LastCrossing (files : FileSystem) (links : Nat)
    (loc : Location) (names : List Name) (landing : Location) (after : List Name) : Prop where
  split : ∃ before name dir target left, names = before ++ name :: after ∧ follow files links loc
    (children before) = some (left, dir) ∧ files.entry (dir ++ [name]) = some (.link target) ∧
    (follow files links loc (children (before ++ [name]))).map Prod.snd = some landing
  plain : walk files landing (children after) = .arrived (landing ++ after)

theorem walk_children_snoc (early : walk files loc (children names) = .arrived (loc ++ names))
    (late : walk files (loc ++ names) [.child name] = .arrived (loc ++ names ++ [name])) :
    walk files loc (children (names ++ [name])) = .arrived (loc ++ (names ++ [name])) := by
  rw [children_append, walk_append, early, ← append_assoc]
  exact late

theorem follow_children (entered : follow files links loc (children names) = some (left, found)) :
    walk files loc (children names) = .arrived (loc ++ names) ∧ found = loc ++ names ∨
      ∃ landing after, LastCrossing files links loc names landing after ∧ found = landing ++ after := by
  induction names using reverseRecOn generalizing left found with
  | nil =>
    have stays : walk files loc (children []) = .arrived loc := rfl
    rw [follow_of_arrived stays] at entered
    cases entered
    rw [append_nil]
    exact .inl ⟨stays, rfl⟩
  | append_singleton names name ih =>
    have whole := entered
    rw [children_append, follow_append] at entered
    obtain ⟨⟨room, mid⟩, early, late⟩ := Option.bind_eq_some_iff.mp entered
    rcases follow_child late with ⟨target, isLink⟩ | ⟨arrived, same⟩
    · refine .inr ⟨found, [], ⟨⟨names, name, mid, target, room, rfl, early, isLink, ?_⟩, ?_⟩, (append_nil _).symm⟩
      · rw [whole]
        rfl
      · rw [append_nil]
        rfl
    · rcases ih early with ⟨plain, place⟩ | ⟨landing, after, crossing, place⟩
      · subst place
        exact .inl ⟨walk_children_snoc plain arrived, by rw [same, append_assoc]⟩
      · subst place
        refine .inr ⟨landing, after ++ [name], ⟨?_, walk_children_snoc crossing.plain arrived⟩,
          by rw [same, append_assoc]⟩
        obtain ⟨before, link, dir, target, rest, parts, reached, isLink, lands⟩ := crossing.split
        refine ⟨before, link, dir, target, rest, ?_, reached, isLink, lands⟩
        rw [parts, append_assoc, cons_append]

theorem LastCrossing.follow_eq {after : List Name}
    {landing : Location} (crossing : LastCrossing files links loc names landing after) :
    ∃ left, follow files links loc (children names) = some (left, landing ++ after) := by
  obtain ⟨before, name, dir, target, rest, parts, _, _, lands⟩ := crossing.split
  obtain ⟨⟨room, place⟩, reached, same⟩ := Option.map_eq_some_iff.mp lands
  cases same
  have joined : names = (before ++ [name]) ++ after := by rw [parts, append_assoc, singleton_append]
  refine ⟨room, ?_⟩
  rw [joined, children_append, follow_append, reached, Option.bind_some, follow_of_arrived crossing.plain]

theorem follow_children_inside
    (entered : follow files links loc (children names) = some (left, found)) :
    loc <+: found ↔ ∀ landing after, LastCrossing files links loc names landing after → loc <+: landing ++ after := by
  constructor
  · intro inside landing after crossing
    obtain ⟨room, again⟩ := crossing.follow_eq
    rw [entered] at again
    cases again
    exact inside
  · intro lasts
    rcases follow_children entered with ⟨_, place⟩ | ⟨landing, after, crossing, place⟩
    · rw [place]
      exact prefix_append _ _
    · rw [place]
      exact lasts landing after crossing

end
end Atlas.Files
