import Mathlib.Logic.Function.Basic

namespace CacheSeek.Lib

variable {σ κ ν ε : Type}

inductive MapCall (κ ν : Type) where
  | put (key : κ) (value : ν)
  | get (key : κ)
  | remove (key : κ)

/-- A store as its callers see it: a `get` answers a value or nothing, and every call may fail. -/
structure MapStore (σ κ ν ε : Type) where
  call : σ → MapCall κ ν → Except ε (Option ν) × σ

abbrev Table (κ ν : Type) := κ → Option ν

namespace Table

variable [DecidableEq κ]

def call (m : Table κ ν) : MapCall κ ν → Option ν × Table κ ν
  | .put key value => (none, Function.update m key (some value))
  | .get key => (m key, m)
  | .remove key => (none, Function.update m key none)

def after (m : Table κ ν) : List (MapCall κ ν) → Table κ ν
  | [] => m
  | c :: cs => after (m.call c).2 cs

def answers (m : Table κ ν) : List (MapCall κ ν) → List (Option ν)
  | [] => []
  | c :: cs => (m.call c).1 :: answers (m.call c).2 cs

end Table

namespace MapStore

/-- Calls in order, between which the store may do something of its own. -/
inductive Event (κ ν ι : Type) where
  | call (c : MapCall κ ν)
  | own (i : ι)

def Event.calls {ι : Type} : List (Event κ ν ι) → List (MapCall κ ν)
  | [] => []
  | .call c :: es => c :: calls es
  | .own _ :: es => calls es

variable {ι : Type}

def answers (S : MapStore σ κ ν ε) (own : ι → σ → Except ε σ) (s : σ) :
    List (Event κ ν ι) → List (Except ε (Option ν))
  | [] => []
  | .call c :: es => (S.call s c).1 :: answers S own (S.call s c).2 es
  | .own i :: es =>
    match own i s with
    | .error e => [.error e]
    | .ok s => answers S own s es

def after (S : MapStore σ κ ν ε) (own : ι → σ → Except ε σ) (s : σ) : List (Event κ ν ι) → Except ε σ
  | [] => .ok s
  | .call c :: es => after S own (S.call s c).2 es
  | .own i :: es =>
    match own i s with
    | .error e => .error e
    | .ok s => after S own s es

variable [DecidableEq κ]

/-- `R` ties states to the values under all keys: calls do and answer what the
values say, and nothing that the store does of its own can be seen. -/
structure Represents (S : MapStore σ κ ν ε) (own : ι → σ → Except ε σ) (R : σ → Table κ ν → Prop) : Prop where
  answer : ∀ {s m}, R s m → ∀ c, (S.call s c).1 = .ok (Table.call m c).1
  next : ∀ {s m}, R s m → ∀ c, R (S.call s c).2 (Table.call m c).2
  own : ∀ {s m}, R s m → ∀ i, ∃ s', own i s = .ok s' ∧ R s' m

theorem Represents.answers {S : MapStore σ κ ν ε} {own : ι → σ → Except ε σ}
    {R : σ → Table κ ν → Prop} (h : S.Represents own R) {s : σ} {m : Table κ ν} (hR : R s m)
    (es : List (Event κ ν ι)) :
    S.answers own s es = (Table.answers m (Event.calls es)).map Except.ok := by
  induction es generalizing s m with
  | nil => rfl
  | cons e es ih =>
    cases e with
    | call c =>
      simp only [MapStore.answers, Event.calls, Table.answers, List.map_cons]
      rw [h.answer hR c, ih (h.next hR c)]
    | own i =>
      obtain ⟨s', hs', hR'⟩ := h.own hR i
      simp only [MapStore.answers, Event.calls, hs']
      exact ih hR'

theorem Represents.after {S : MapStore σ κ ν ε} {own : ι → σ → Except ε σ}
    {R : σ → Table κ ν → Prop} (h : S.Represents own R) {s : σ} {m : Table κ ν} (hR : R s m)
    (es : List (Event κ ν ι)) :
    ∃ s', S.after own s es = .ok s' ∧ R s' (Table.after m (Event.calls es)) := by
  induction es generalizing s m with
  | nil => exact ⟨s, rfl, hR⟩
  | cons e es ih =>
    cases e with
    | call c => exact ih (h.next hR c)
    | own i =>
      obtain ⟨s', hs', hR'⟩ := h.own hR i
      simp only [MapStore.after, Event.calls, hs']
      exact ih hR'

end MapStore

end CacheSeek.Lib
