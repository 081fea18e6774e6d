import Atlas.Session.MemoryProperties

/-! What a consolidation leaves listed: the first memory of each group, and a new one with
its body. -/
namespace Atlas.Session
open List
open Core (OffsetDateTime)
open Program (PartsInto Run)

def plainLibrary : MemoryLibrary where
  sha256 _ := "m3"
  toLowercase text := text
  parseTimestamp _ := none

def deployMemory (id body : String) : MemoryRecord :=
  ({ repoRoot := "/repo", title := "deploy", body } : NewMemory).record "2" id
def deployMemories : MemoryTables := ⟨[deployMemory "m1" "helm", deployMemory "m2" "charts"], []⟩

theorem threeNanoseconds : 3 < 10 ^ 9 := by decide

def consolidated : MemoryTables := (consolidationPlan plainLibrary "/repo" {} false
    (fun _ => Core.sampleInstant 3 threeNanoseconds) deployMemories).2

end Atlas.Session
