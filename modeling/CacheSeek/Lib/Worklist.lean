import Mathlib.Data.List.Nodup
import Mathlib.Data.List.Perm.Subperm
import Mathlib.Logic.Relation

namespace CacheSeek.Lib

variable {α : Type}

/-- Takes the last entry of `todo` off and its successors on, until none is left. -/
def sweep (next : α → List α) : Nat → List α → List α
  | 0, _ => []
  | fuel + 1, todo =>
    match todo.getLast? with
    | none => []
    | some a => a :: sweep next fuel (todo.dropLast ++ next a)

/-- Successors that branch inside `dom`: none is listed twice or comes from two places. -/
structure Branching (next : α → List α) (dom : List α) : Prop where
  mem : ∀ {a c}, a ∈ dom → c ∈ next a → c ∈ dom
  nodup : ∀ {a}, a ∈ dom → (next a).Nodup
  unique : ∀ {a b c}, a ∈ dom → b ∈ dom → c ∈ next a → c ∈ next b → a = b

/-- A sweep under way: `seen` is done, and what waits was there at first or came from it. -/
structure Sweeping (next : α → List α) (dom start seen todo : List α) : Prop where
  nodup : (seen ++ todo).Nodup
  dom : ∀ c ∈ seen ++ todo, c ∈ dom
  origin : ∀ c ∈ seen ++ todo, c ∈ start ∨ ∃ p ∈ seen, c ∈ next p

section
variable {next : α → List α} {dom start : List α}

theorem Sweeping.init (hs : start.Nodup) (hd : ∀ c ∈ start, c ∈ dom) :
    Sweeping next dom start [] start :=
  ⟨hs, hd, fun _ hc => Or.inl hc⟩

/-- One turn of the loop. -/
theorem Sweeping.turn (hb : Branching next dom) (hfree : ∀ a ∈ dom, ∀ c ∈ next a, c ∉ start)
    {seen todo : List α} {a : α} (h : Sweeping next dom start seen (todo ++ [a])) :
    Sweeping next dom start (seen ++ [a]) (todo ++ next a) := by
  have hperm : (seen ++ [a] ++ todo).Perm (seen ++ (todo ++ [a])) := by
    rw [List.append_assoc]
    exact List.perm_append_comm.append_left seen
  have hold : ∀ {c}, c ∈ seen ++ [a] ++ todo → c ∈ seen ++ (todo ++ [a]) := fun hc => hperm.mem_iff.mp hc
  have had : a ∈ dom := h.dom a (by simp)
  have hnot : a ∉ seen := by
    have := (List.nodup_append.mp h.nodup).2.2
    exact fun ha => this a ha a (by simp) rfl
  refine ⟨?_, ?_, ?_⟩
  · rw [← List.append_assoc, List.nodup_append]
    refine ⟨hperm.nodup_iff.mpr h.nodup, hb.nodup had, ?_⟩
    intro c hc d hd hcd
    subst d
    rcases h.origin c (hold hc) with hs | ⟨p, hp, hcp⟩
    · exact hfree a had c hd hs
    · have he := hb.unique (h.dom p (by simp [hp])) had hcp hd
      exact hnot (he ▸ hp)
  · intro c hc
    rw [← List.append_assoc, List.mem_append] at hc
    rcases hc with hc | hc
    · exact h.dom c (hold hc)
    · exact hb.mem had hc
  · intro c hc
    rw [← List.append_assoc, List.mem_append] at hc
    rcases hc with hc | hc
    · rcases h.origin c (hold hc) with hs | ⟨p, hp, hcp⟩
      · exact Or.inl hs
      · exact Or.inr ⟨p, by simp [hp], hcp⟩
    · exact Or.inr ⟨a, by simp, hc⟩

/-- With fuel for every element of `dom`, a sweep lists each element reached once. -/
theorem Sweeping.spec [DecidableEq α] (hb : Branching next dom)
    (hfree : ∀ a ∈ dom, ∀ c ∈ next a, c ∉ start) {fuel : Nat} {seen todo : List α}
    (h : Sweeping next dom start seen todo) (hf : dom.length ≤ seen.length + fuel) :
    (seen ++ sweep next fuel todo).Nodup ∧ ∀ x, x ∈ sweep next fuel todo ↔
      ∃ s ∈ todo, Relation.ReflTransGen (fun a b => b ∈ next a) s x := by
  induction fuel generalizing seen todo with
  | zero =>
    have hlen := h.nodup.length_le_of_subset fun c hc => h.dom c hc
    rw [List.length_append] at hlen
    have hnil : todo = [] := List.eq_nil_of_length_eq_zero (by omega)
    subst todo
    simpa [sweep] using h.nodup
  | succ fuel ih =>
    rcases List.eq_nil_or_concat todo with hnil | ⟨rest, a, hcons⟩
    · subst todo
      simpa [sweep] using h.nodup
    · rw [List.concat_eq_append] at hcons
      subst todo
      obtain ⟨hnd, hmem⟩ := ih (h.turn hb hfree) (by simp only [List.length_append, List.length_singleton]; omega)
      simp only [sweep, List.getLast?_concat, List.dropLast_concat]
      refine ⟨by rwa [List.append_assoc] at hnd, ?_⟩
      intro x
      rw [List.mem_cons, hmem]
      constructor
      · intro hx
        rcases hx with hx | ⟨s, hs, hx⟩
        · exact ⟨a, by simp, hx ▸ Relation.ReflTransGen.refl⟩
        · rcases List.mem_append.mp hs with hs | hs
          · exact ⟨s, by simp [hs], hx⟩
          · exact ⟨a, by simp, Relation.ReflTransGen.head hs hx⟩
      · intro hx
        obtain ⟨s, hs, hx⟩ := hx
        rcases List.mem_append.mp hs with hs | hs
        · exact Or.inr ⟨s, by simp [hs], hx⟩
        · rw [List.mem_singleton] at hs
          subst s
          rcases Relation.ReflTransGen.cases_head hx with he | ⟨c, hc, hx⟩
          · exact Or.inl he.symm
          · exact Or.inr ⟨c, by simp [hc], hx⟩

theorem sweep_spec [DecidableEq α] (hb : Branching next dom) (hs : start.Nodup)
    (hd : ∀ c ∈ start, c ∈ dom) (hfree : ∀ a ∈ dom, ∀ c ∈ next a, c ∉ start) {fuel : Nat}
    (hf : dom.length ≤ fuel) :
    (sweep next fuel start).Nodup ∧ ∀ x, x ∈ sweep next fuel start ↔
      ∃ s ∈ start, Relation.ReflTransGen (fun a b => b ∈ next a) s x := by
  have hlen : dom.length ≤ ([] : List α).length + fuel := by simpa using hf
  exact (Sweeping.init hs hd).spec hb hfree hlen

end

end CacheSeek.Lib
