import CacheSeek.Lib.Dict
import Mathlib.Data.List.Sort
import Mathlib.Data.Rat.Init

namespace CacheSeek.Service.Eviction
open CacheSeek.Lib

abbrev Metadata := Dict String Rat

def field (name : String) (info : Metadata) : Rat := (info.get? name).getD 0

/-- Python's `int`, towards zero. -/
def toInt (x : Rat) : Int := x.num.tdiv x.den

/-- `int(size_mb * 1024 * 1024)`. -/
def sizeBytes (info : Metadata) : Int := toInt (field "size_mb" info * 1024 * 1024)

def accumulateFrom (sizeToFreeBytes : Int) : Int → List (String × Metadata) → List String
  | _, [] => []
  | freed, (cacheId, info) :: items =>
    let freed := freed + sizeBytes info
    cacheId :: if freed ≥ sizeToFreeBytes then [] else accumulateFrom sizeToFreeBytes freed items

def accumulate (items : List (String × Metadata)) (sizeToFreeBytes : Int) : List String :=
  if sizeToFreeBytes ≤ 0 then [] else accumulateFrom sizeToFreeBytes 0 items

def sortedBy (name : String) (candidates : List (String × Metadata)) : List (String × Metadata) :=
  candidates.insertionSort fun a b => field name a.2 ≤ field name b.2

def selectBy (name : String) (candidates : List (String × Metadata)) (sizeToFreeBytes : Int) : List String :=
  accumulate (sortedBy name candidates) sizeToFreeBytes

namespace LRUEviction

def selectVictims : List (String × Metadata) → Int → List String := selectBy "last_access_time"

end LRUEviction

namespace FIFOEviction

def selectVictims : List (String × Metadata) → Int → List String := selectBy "created_at"

end FIFOEviction

end CacheSeek.Service.Eviction
