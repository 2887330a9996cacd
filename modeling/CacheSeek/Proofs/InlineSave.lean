import CacheSeek.Service.InlineSave
import Mathlib.Data.List.Basic

namespace CacheSeek.Proofs.InlineSave
open CacheSeek.Lib CacheSeek.Service

variable {ε : Type} {c : SaveCoroutine ε}

/-- The effects of a save on a loop, each as often as the save performs it. -/
def effects : SaveCoroutine ε → List ε
  | .done _ => []
  | .effect x next => x :: effects next
  | .await _ next _ _ => effects next

end CacheSeek.Proofs.InlineSave
