import CacheSeek.Prefix.Shape

namespace CacheSeek.Prefix
open CacheSeek.Lib
namespace NamespaceForest

variable {f : NamespaceForest}

@[simp] theorem addChild_snd (f : NamespaceForest) (n : NodeId) (x : TrieNode) :
    (f.addChild n x).2 = f.nodes.size := rfl

@[simp] theorem addChild_size (f : NamespaceForest) (n : NodeId) (x : TrieNode) :
    (f.addChild n x).1.nodes.size = f.nodes.size + 1 := rfl

@[simp] theorem addChild_handles (f : NamespaceForest) (n : NodeId) (x : TrieNode) :
    (f.addChild n x).1.handles = f.handles := rfl

@[simp] theorem addChild_resolve (f : NamespaceForest) (n : NodeId) (x : TrieNode) (r : Bytes) :
    (f.addChild n x).1.resolve r = f.resolve r := rfl

theorem addChild_new (f : NamespaceForest) {n : NodeId} (hn : n < f.nodes.size) (x : TrieNode) :
    (f.addChild n x).1.node f.nodes.size = x := by
  simp only [addChild, modifyNode, node]
  rw [Heap.get_modify_ne _ _ (Nat.ne_of_gt hn), Heap.get_alloc_self]

theorem addChild_parent (f : NamespaceForest) {n : NodeId} (hn : n < f.nodes.size) (x : TrieNode) :
    (f.addChild n x).1.node n =
      { f.node n with children := (f.node n).children.set x.action f.nodes.size } := by
  simp only [addChild, modifyNode, node]
  rw [Heap.get_modify_self, Heap.get_alloc_lt _ _ hn]

theorem addChild_other (f : NamespaceForest) {n m : NodeId} (x : TrieNode) (hn : m ≠ n)
    (hm : m ≠ f.nodes.size) : (f.addChild n x).1.node m = f.node m := by
  simp only [addChild, modifyNode, node]
  rw [Heap.get_modify_ne _ _ hn, Heap.get_alloc_ne _ _ hm]

/-- Only the children of an old node can change. -/
theorem addChild_old (f : NamespaceForest) {n m : NodeId} (hn : n < f.nodes.size) (x : TrieNode)
    (hm : m < f.nodes.size) :
    ∃ cs, (f.addChild n x).1.node m = { f.node m with children := cs } := by
  by_cases he : m = n
  · subst m
    exact ⟨_, f.addChild_parent hn x⟩
  · exact ⟨_, f.addChild_other x he (Nat.ne_of_lt hm)⟩

/-- Only the new node's own edge is new, and it has no children yet. -/
theorem addChild_child (f : NamespaceForest) {n m : NodeId} (hn : n < f.nodes.size) (x : TrieNode)
    (hx : x.children = ∅) (hm : m < f.nodes.size + 1) (a : ActionKey) :
    (f.addChild n x).1.child m a =
      if m = n ∧ a = x.action then some f.nodes.size
      else if m = f.nodes.size then none else f.child m a := by
  unfold child
  by_cases hmn : m = n
  · subst m
    rw [f.addChild_parent hn x, Dict.get?_set]
    simp only [true_and, Nat.ne_of_lt hn, ↓reduceIte]
  · by_cases hms : m = f.nodes.size
    · subst m
      rw [f.addChild_new hn x, hx]
      simp [hmn]
    · rw [f.addChild_other x hmn hms]
      simp [hmn, hms]

/-- Every link of the grown trie is the new one or an old one. -/
theorem addChild_child_inv (f : NamespaceForest) {n m c : NodeId} {a : ActionKey} {x : TrieNode}
    (hn : n < f.nodes.size) (hx : x.children = ∅) (hm : m < f.nodes.size + 1)
    (hc : (f.addChild n x).1.child m a = some c) :
    (m = n ∧ a = x.action ∧ c = f.nodes.size) ∨ (m < f.nodes.size ∧ f.child m a = some c) := by
  rw [f.addChild_child hn x hx hm] at hc
  split at hc
  · rename_i he
    cases hc
    exact Or.inl ⟨he.1, he.2, rfl⟩
  · split at hc
    · cases hc
    · rename_i hms
      exact Or.inr ⟨Nat.lt_of_le_of_ne (Nat.le_of_lt_succ hm) hms, hc⟩

theorem addChild_hasKv (f : NamespaceForest) {n m : NodeId} (hn : n < f.nodes.size) (x : TrieNode)
    (hm : m < f.nodes.size) : (f.addChild n x).1.hasKv m = f.hasKv m := by
  obtain ⟨cs, he⟩ := f.addChild_old hn x hm
  unfold hasKv
  rw [he]
  rfl

end NamespaceForest

open NamespaceForest

section
variable {f : NamespaceForest} {n : NodeId} {x : TrieNode}

theorem Shape.addChild (h : Shape f) (hn : n < f.nodes.size) (hp : x.parent = some n)
    (hx : x.children = ∅) : Shape (f.addChild n x).1 := by
  have old : ∀ {m}, m < f.nodes.size → ∃ cs, (f.addChild n x).1.node m = { f.node m with children := cs } :=
    fun hm => f.addChild_old hn x hm
  constructor
  · exact h.root_hash
  · intro r ns hr
    exact Nat.lt_succ_of_lt (h.root_lt hr)
  · intro r ns hr
    obtain ⟨cs, he⟩ := old (h.root_lt hr)
    rw [he]
    exact h.root_key hr
  · intro r ns hr
    obtain ⟨cs, he⟩ := old (h.root_lt hr)
    rw [he]
    exact h.root_depth hr
  · intro r ns hr
    obtain ⟨cs, he⟩ := old (h.root_lt hr)
    rw [he]
    exact h.root_parent hr
  · intro m a c hm hc
    rcases f.addChild_child_inv hn hx hm hc with ⟨rfl, _, rfl⟩ | ⟨hm, hc⟩
    · exact ⟨hn, Nat.lt_succ_self _⟩
    · exact ⟨(h.child_lt hm hc).1, Nat.lt_succ_of_lt (h.child_lt hm hc).2⟩
  · intro m a c hm hc
    rcases f.addChild_child_inv hn hx hm hc with ⟨rfl, _, rfl⟩ | ⟨hm, hc⟩
    · rw [f.addChild_new hn x, hp]
    · obtain ⟨cs, he⟩ := old (h.child_lt hm hc).2
      rw [he]
      exact h.child_parent hm hc
  · intro m a c hm hc
    rcases f.addChild_child_inv hn hx hm hc with ⟨rfl, rfl, rfl⟩ | ⟨hm, hc⟩
    · rw [f.addChild_new hn x]
    · obtain ⟨cs, he⟩ := old (h.child_lt hm hc).2
      rw [he]
      exact h.child_action hm hc
  · intro m c hc hpar
    rcases Nat.lt_succ_iff_lt_or_eq.mp hc with hc | rfl
    · obtain ⟨cs, he⟩ := old hc
      rw [he] at hpar
      exact h.parent_lt hc hpar
    · rw [f.addChild_new hn x, hp] at hpar
      cases hpar
      exact hn
  · intro m hm hpar
    rcases Nat.lt_succ_iff_lt_or_eq.mp hm with hm | rfl
    · obtain ⟨cs, he⟩ := old hm
      rw [he] at hpar ⊢
      exact h.rooted hm hpar
    · rw [f.addChild_new hn x, hp] at hpar
      cases hpar

/-- The action had no child, so no node loses its place at its parent. -/
theorem Attached.addChild (h : Attached f) (hs : Shape f) (hn : n < f.nodes.size)
    (hp : x.parent = some n) (hx : x.children = ∅) (hnew : f.child n x.action = none) :
    Attached (f.addChild n x).1 := by
  intro m c hc hpar
  rcases Nat.lt_succ_iff_lt_or_eq.mp hc with hc | rfl
  · obtain ⟨cs, he⟩ := f.addChild_old hn x hc
    rw [he] at hpar ⊢
    have hmc := h hc hpar
    have hm := Nat.lt_trans (hs.parent_lt hc hpar) hc
    rw [f.addChild_child hn x hx (Nat.lt_succ_of_lt hm), if_neg, if_neg (Nat.ne_of_lt hm), hmc]
    rintro ⟨rfl, ha⟩
    change (f.node c).action = x.action at ha
    rw [ha, hnew] at hmc
    cases hmc
  · rw [f.addChild_new hn x] at hpar ⊢
    rw [hp] at hpar
    cases hpar
    rw [f.addChild_child hn x hx (Nat.lt_succ_of_lt hn), if_pos ⟨rfl, rfl⟩]

/-- The new path is the parent's path and the new action, and nothing is below it. -/
theorem Shape.nodeAt_replace (h : Shape f) (hx : x.children = ∅) {r : Bytes} {p : List ActionKey}
    (hp : f.nodeAt r p = some n) (r' : Bytes) (q : List ActionKey) :
    (f.addChild n x).1.nodeAt r' q =
      if r' = r ∧ p ++ [x.action] <+: q then
        if q = p ++ [x.action] then some f.nodes.size else none
      else f.nodeAt r' q := by
  have hn := h.nodeAt_lt hp
  induction q using List.reverseRecOn with
  | nil =>
    rw [if_neg (by simp), nodeAt_nil, nodeAt_nil, addChild_resolve]
  | append_singleton q a ih =>
    rw [nodeAt_snoc, ih]
    by_cases hq : r' = r ∧ p ++ [x.action] <+: q
    · have hne : q ++ [a] ≠ p ++ [x.action] := by
        intro he
        have := hq.2.length_le
        have := congrArg List.length he
        simp only [List.length_append, List.length_singleton] at *
        omega
      have hq' : r' = r ∧ p ++ [x.action] <+: q ++ [a] :=
        ⟨hq.1, hq.2.trans (List.prefix_append q [a])⟩
      rw [if_pos hq, if_pos hq', if_neg hne]
      by_cases hs : q = p ++ [x.action]
      · rw [if_pos hs, Option.bind_some, f.addChild_child hn x hx (Nat.lt_succ_self _), if_neg,
          if_pos rfl]
        intro he
        exact Nat.ne_of_lt hn he.1.symm
      · rw [if_neg hs]
        rfl
    · have hnew : (r' = r ∧ p ++ [x.action] <+: q ++ [a]) ↔ r' = r ∧ p = q ∧ x.action = a := by
        constructor
        · intro ⟨hr, hpq⟩
          rcases List.prefix_concat_iff.mp hpq with he | hpre
          · obtain ⟨hl, ha⟩ := List.append_inj' he rfl
            exact ⟨hr, hl, List.head_eq_of_cons_eq ha⟩
          · exact absurd ⟨hr, hpre⟩ hq
        · intro ⟨hr, hl, ha⟩
          exact ⟨hr, hl ▸ ha ▸ List.prefix_rfl⟩
      rw [if_neg hq]
      simp only [hnew]
      cases hm : f.nodeAt r' q with
      | none =>
        rw [if_neg, nodeAt_snoc, hm]
        · rfl
        · intro ⟨hr, hl, _⟩
          rw [hr, ← hl, hp] at hm
          cases hm
      | some m =>
        have hml := h.nodeAt_lt hm
        rw [Option.bind_some, f.addChild_child hn x hx (Nat.lt_succ_of_lt hml),
          if_neg (Nat.ne_of_lt hml), nodeAt_snoc, hm, Option.bind_some]
        by_cases he : m = n ∧ a = x.action
        · obtain ⟨rfl, rfl⟩ := he
          obtain ⟨rfl, rfl⟩ := h.nodeAt_inj hm hp
          rw [if_pos ⟨rfl, rfl⟩, if_pos ⟨rfl, rfl, rfl⟩, if_pos rfl]
        · rw [if_neg he, if_neg]
          intro ⟨hr, hl, ha⟩
          rw [hr, ← hl, hp] at hm
          exact he ⟨(Option.some.inj hm).symm, ha.symm⟩

/-- Where no child was replaced, there is one more path and no path less. -/
theorem Shape.nodeAt_addChild (h : Shape f) (hx : x.children = ∅)
    (hnew : f.child n x.action = none) {r : Bytes} {p : List ActionKey} (hp : f.nodeAt r p = some n)
    (r' : Bytes) (q : List ActionKey) :
    (f.addChild n x).1.nodeAt r' q =
      if r' = r ∧ q = p ++ [x.action] then some f.nodes.size else f.nodeAt r' q := by
  rw [h.nodeAt_replace hx hp]
  by_cases hq : r' = r ∧ p ++ [x.action] <+: q
  · obtain ⟨hr, s, hs⟩ := hq
    have hnone : f.nodeAt r' q = none := by
      rw [← hs, hr, nodeAt_append, nodeAt_snoc, hp, Option.bind_some, hnew]
      rfl
    rw [if_pos ⟨hr, s, hs⟩, hnone]
    simp only [hr, true_and]
  · rw [if_neg hq, if_neg]
    intro ⟨hr, he⟩
    exact hq ⟨hr, he ▸ List.prefix_rfl⟩

/-- A child without a blob publishes nothing and hides nothing. -/
theorem Shape.published_addChild (h : Shape f) (hx : x.children = ∅) (hb : x.blob = none)
    (hnew : f.child n x.action = none) {r : Bytes} {p : List ActionKey} (hp : f.nodeAt r p = some n) :
    (f.addChild n x).1.published = f.published := by
  funext r' q
  have hn := h.nodeAt_lt hp
  unfold published
  rw [h.nodeAt_addChild hx hnew hp]
  by_cases hq : r' = r ∧ q = p ++ [x.action]
  · rw [if_pos hq, hq.1, hq.2, nodeAt_snoc, hp, Option.bind_some, hnew]
    simp only [hasKv, f.addChild_new hn x, hb]
  rw [if_neg hq]
  cases hm : f.nodeAt r' q with
  | none => rfl
  | some m => exact f.addChild_hasKv hn x (h.nodeAt_lt hm)

end

section
variable {f : NamespaceForest} {r : Bytes}

/-- A known root keeps its namespace and the config hash that it was made with. -/
theorem getOrCreate_old {ns : Namespace} (hr : f.resolve r = some ns) (c : Bytes) :
    f.getOrCreateNamespace r c = (f, ns) := by
  unfold resolve at hr
  simp only [getOrCreateNamespace, hr]

/-- The forest with the world `r` added. -/
def NamespaceForest.addWorld (f : NamespaceForest) (r c : Bytes) : NamespaceForest :=
  { f with
      namespaces := f.namespaces.set r ⟨r, c, f.nodes.size, false⟩
      nodes := f.nodes.alloc (virtualRoot r) }

theorem getOrCreate_new (hr : f.resolve r = none) (c : Bytes) :
    f.getOrCreateNamespace r c = (f.addWorld r c, ⟨r, c, f.nodes.size, false⟩) := by
  unfold resolve at hr
  simp only [getOrCreateNamespace, hr, addWorld]

@[simp] theorem addWorld_size (f : NamespaceForest) (r c : Bytes) :
    (f.addWorld r c).nodes.size = f.nodes.size + 1 := rfl

@[simp] theorem addWorld_handles (f : NamespaceForest) (r c : Bytes) :
    (f.addWorld r c).handles = f.handles := rfl

theorem addWorld_new (f : NamespaceForest) (r c : Bytes) :
    (f.addWorld r c).node f.nodes.size = virtualRoot r :=
  Heap.get_alloc_self _ _

theorem addWorld_old (f : NamespaceForest) (r c : Bytes) {n : NodeId} (hn : n < f.nodes.size) :
    (f.addWorld r c).node n = f.node n :=
  Heap.get_alloc_lt _ _ hn

theorem addWorld_resolve (f : NamespaceForest) (r c r' : Bytes) :
    (f.addWorld r c).resolve r' =
      if r' = r then some ⟨r, c, f.nodes.size, false⟩ else f.resolve r' :=
  Dict.get?_set _ _ _ _

theorem addWorld_child (f : NamespaceForest) (r c : Bytes) {n : NodeId}
    (hn : n < f.nodes.size + 1) (a : ActionKey) :
    (f.addWorld r c).child n a = if n = f.nodes.size then none else f.child n a := by
  unfold child
  split
  · subst n
    rw [addWorld_new]
    rfl
  · rename_i hne
    rw [addWorld_old f r c (Nat.lt_of_le_of_ne (Nat.le_of_lt_succ hn) hne)]

theorem addWorld_child_inv (f : NamespaceForest) {r c : Bytes} {n d : NodeId} {a : ActionKey}
    (hn : n < f.nodes.size + 1) (hd : (f.addWorld r c).child n a = some d) :
    n < f.nodes.size ∧ f.child n a = some d := by
  rw [addWorld_child f r c hn] at hd
  split at hd
  · cases hd
  · rename_i hne
    exact ⟨Nat.lt_of_le_of_ne (Nat.le_of_lt_succ hn) hne, hd⟩

theorem Shape.addWorld (h : Shape f) (hr : f.resolve r = none) (c : Bytes) :
    Shape (f.addWorld r c) := by
  have root : ∀ {r' ns}, (f.addWorld r c).resolve r' = some ns →
      r' = r ∧ ns = ⟨r, c, f.nodes.size, false⟩ ∨ f.resolve r' = some ns := by
    intro r' ns hr'
    rw [addWorld_resolve] at hr'
    split at hr'
    · rename_i he
      exact Or.inl ⟨he, (Option.some.inj hr').symm⟩
    · exact Or.inr hr'
  constructor
  · intro r' ns hr'
    rcases root hr' with ⟨rfl, rfl⟩ | hr'
    · rfl
    · exact h.root_hash hr'
  · intro r' ns hr'
    rcases root hr' with ⟨rfl, rfl⟩ | hr'
    · exact Nat.lt_succ_self _
    · exact Nat.lt_succ_of_lt (h.root_lt hr')
  · intro r' ns hr'
    rcases root hr' with ⟨rfl, rfl⟩ | hr'
    · rw [addWorld_new]
      rfl
    · rw [addWorld_old f r c (h.root_lt hr')]
      exact h.root_key hr'
  · intro r' ns hr'
    rcases root hr' with ⟨rfl, rfl⟩ | hr'
    · rw [addWorld_new]
      rfl
    · rw [addWorld_old f r c (h.root_lt hr')]
      exact h.root_depth hr'
  · intro r' ns hr'
    rcases root hr' with ⟨rfl, rfl⟩ | hr'
    · rw [addWorld_new]
      rfl
    · rw [addWorld_old f r c (h.root_lt hr')]
      exact h.root_parent hr'
  · intro n a d hn hd
    obtain ⟨hn, hd⟩ := addWorld_child_inv f hn hd
    exact ⟨(h.child_lt hn hd).1, Nat.lt_succ_of_lt (h.child_lt hn hd).2⟩
  · intro n a d hn hd
    obtain ⟨hn, hd⟩ := addWorld_child_inv f hn hd
    rw [addWorld_old f r c (h.child_lt hn hd).2]
    exact h.child_parent hn hd
  · intro n a d hn hd
    obtain ⟨hn, hd⟩ := addWorld_child_inv f hn hd
    rw [addWorld_old f r c (h.child_lt hn hd).2]
    exact h.child_action hn hd
  · intro m n hn hp
    rcases Nat.lt_succ_iff_lt_or_eq.mp hn with hn | rfl
    · rw [addWorld_old f r c hn] at hp
      exact h.parent_lt hn hp
    · rw [addWorld_new] at hp
      cases hp
  · intro n hn hp
    rcases Nat.lt_succ_iff_lt_or_eq.mp hn with hn | rfl
    · rw [addWorld_old f r c hn] at hp ⊢
      obtain ⟨ns, hns, he⟩ := h.rooted hn hp
      refine ⟨ns, ?_, he⟩
      rw [addWorld_resolve, if_neg, hns]
      intro hk
      rw [hk, hr] at hns
      cases hns
    · rw [addWorld_new]
      exact ⟨_, by rw [addWorld_resolve]; exact if_pos rfl, rfl⟩

theorem Attached.addWorld (h : Attached f) (hs : Shape f) (c : Bytes) : Attached (f.addWorld r c) := by
  intro m n hn hp
  rcases Nat.lt_succ_iff_lt_or_eq.mp hn with hn | rfl
  · rw [addWorld_old f r c hn] at hp ⊢
    have hm := Nat.lt_trans (hs.parent_lt hn hp) hn
    rw [addWorld_child f r c (Nat.lt_succ_of_lt hm), if_neg (Nat.ne_of_lt hm)]
    exact h hn hp
  · rw [addWorld_new] at hp
    cases hp

/-- A new world has its virtual root and nothing else. -/
theorem Shape.nodeAt_addWorld (h : Shape f) (hr : f.resolve r = none) (c r' : Bytes)
    (q : List ActionKey) :
    (f.addWorld r c).nodeAt r' q =
      if r' = r ∧ q = [] then some f.nodes.size else f.nodeAt r' q := by
  induction q using List.reverseRecOn with
  | nil =>
    rw [nodeAt_nil, nodeAt_nil, addWorld_resolve]
    by_cases he : r' = r <;> simp [he]
  | append_singleton q a ih =>
    rw [nodeAt_snoc, ih, nodeAt_snoc,
      if_neg (fun he : r' = r ∧ q ++ [a] = [] => List.append_ne_nil_of_right_ne_nil q (by simp) he.2)]
    split
    · rename_i hq
      obtain ⟨rfl, rfl⟩ := hq
      rw [Option.bind_some, addWorld_child f _ c (Nat.lt_succ_self _), if_pos rfl, nodeAt_nil, hr]
      rfl
    · cases hm : f.nodeAt r' q with
      | none => rfl
      | some m =>
        have hml := h.nodeAt_lt hm
        rw [Option.bind_some, Option.bind_some, addWorld_child f r c (Nat.lt_succ_of_lt hml),
          if_neg (Nat.ne_of_lt hml)]

/-- A new world publishes nothing. -/
theorem Shape.published_addWorld (h : Shape f) (hr : f.resolve r = none) (c : Bytes) :
    (f.addWorld r c).published = f.published := by
  funext r' q
  unfold published
  rw [h.nodeAt_addWorld hr]
  by_cases hq : r' = r ∧ q = []
  · rw [if_pos hq, hq.1, hq.2, nodeAt_nil, hr]
    simp [hasKv, addWorld_new, virtualRoot]
  rw [if_neg hq]
  cases hm : f.nodeAt r' q with
  | none => rfl
  | some m =>
    simp only [hasKv, addWorld_old f r c (h.nodeAt_lt hm)]
    rfl

end

/-- `R` relates key and depth of every node, its action and key and depth of the child. -/
def Edges (R : Bytes → Int → ActionKey → Bytes → Int → Prop) (f : NamespaceForest) : Prop :=
  ∀ ⦃n a c⦄, n < f.nodes.size → f.child n a = some c →
    R (f.node n).nodeKey (f.node n).depth a (f.node c).nodeKey (f.node c).depth

namespace Edges

variable {R : Bytes → Int → ActionKey → Bytes → Int → Prop} {f g : NamespaceForest}

theorem sameTrie (h : Edges R f) (hs : SameTrie f g) : Edges R g := by
  intro n a c hn hc
  rw [hs.size] at hn
  rw [hs.nodeKey, hs.depth, hs.nodeKey, hs.depth]
  exact h hn (hs.child n a ▸ hc)

theorem addChild (h : Edges R f) (hs : Shape f) {n : NodeId} {x : TrieNode} (hn : n < f.nodes.size)
    (hx : x.children = ∅)
    (hR : R (f.node n).nodeKey (f.node n).depth x.action x.nodeKey x.depth) :
    Edges R (f.addChild n x).1 := by
  intro m a c hm hc
  rcases f.addChild_child_inv hn hx hm hc with ⟨rfl, rfl, rfl⟩ | ⟨hm, hc⟩
  · rw [f.addChild_new hn x, f.addChild_parent hn x]
    exact hR
  · obtain ⟨cs, he⟩ := f.addChild_old hn x hm
    obtain ⟨ds, hd⟩ := f.addChild_old hn x (hs.child_lt hm hc).2
    rw [he, hd]
    exact h hm hc

theorem addWorld (h : Edges R f) (hs : Shape f) (r c : Bytes) : Edges R (f.addWorld r c) := by
  intro n a d hn hd
  obtain ⟨hn, hd⟩ := addWorld_child_inv f hn hd
  rw [addWorld_old f r c hn, addWorld_old f r c (hs.child_lt hn hd).2]
  exact h hn hd

end Edges

theorem Shape.empty : Shape .empty := by
  constructor <;> intros <;> contradiction

theorem Attached.empty : Attached .empty := by
  intro n c hc
  exact absurd hc (Nat.not_lt_zero c)

theorem Edges.empty {R : Bytes → Int → ActionKey → Bytes → Int → Prop} : Edges R .empty := by
  intro n a c hn
  exact absurd hn (Nat.not_lt_zero n)

section
variable {f : NamespaceForest} {n c : NodeId} {a : ActionKey}

/-- A chunk that is there is reused, and the key and depth given with it are ignored. -/
theorem commit_old (h : f.child n a = some c) (k : Bytes) (d : Int) : f.commit n a k d = (f, c) := by
  unfold commit
  rw [h]

theorem commit_new (h : f.child n a = none) (k : Bytes) (d : Int) :
    f.commit n a k d =
      f.addChild n { nodeKey := k, action := a, depth := d, parent := some n } := by
  unfold commit
  rw [h]

/-- The committed node is the child looked for. -/
theorem commit_child (hn : n < f.nodes.size) (k : Bytes) (d : Int) :
    (f.commit n a k d).1.child n a = some (f.commit n a k d).2 := by
  cases h : f.child n a with
  | some c => rw [commit_old h, h]
  | none =>
    rw [commit_new h, f.addChild_child hn _ rfl (Nat.lt_succ_of_lt hn)]
    simp

theorem commit_lt (hs : Shape f) (hn : n < f.nodes.size) (k : Bytes) (d : Int) :
    (f.commit n a k d).2 < (f.commit n a k d).1.nodes.size := by
  cases h : f.child n a with
  | some c =>
    rw [commit_old h]
    exact (hs.child_lt hn h).2
  | none =>
    rw [commit_new h]
    exact Nat.lt_succ_self _

theorem commit_le (f : NamespaceForest) (n : NodeId) (a : ActionKey) (k : Bytes) (d : Int) :
    f.nodes.size ≤ (f.commit n a k d).1.nodes.size := by
  cases h : f.child n a with
  | some c => rw [commit_old h]
  | none =>
    rw [commit_new h]
    exact Nat.le_succ _

/-- A node of the grown trie is the committed one or an old one. -/
theorem commit_node_cases (hn : n < f.nodes.size) (k : Bytes) (d : Int) {m : NodeId}
    (hm : m < (f.commit n a k d).1.nodes.size) :
    (m < f.nodes.size ∧ ∃ cs, (f.commit n a k d).1.node m = { f.node m with children := cs }) ∨
      (f.child n a = none ∧ m = (f.commit n a k d).2 ∧
        (f.commit n a k d).1.node m =
          { nodeKey := k, action := a, depth := d, parent := some n }) := by
  cases h : f.child n a with
  | some c =>
    rw [commit_old h] at hm ⊢
    exact Or.inl ⟨hm, _, rfl⟩
  | none =>
    rw [commit_new h] at hm ⊢
    rcases Nat.lt_succ_iff_lt_or_eq.mp hm with hm | rfl
    · exact Or.inl ⟨hm, f.addChild_old hn _ hm⟩
    · exact Or.inr ⟨rfl, rfl, f.addChild_new hn _⟩

@[simp] theorem commit_handles (f : NamespaceForest) (n : NodeId) (a : ActionKey) (k : Bytes)
    (d : Int) : (f.commit n a k d).1.handles = f.handles := by
  cases h : f.child n a with
  | some c => rw [commit_old h]
  | none => rw [commit_new h, addChild_handles]

@[simp] theorem commit_resolve (f : NamespaceForest) (n : NodeId) (a : ActionKey) (k : Bytes)
    (d : Int) (r : Bytes) : (f.commit n a k d).1.resolve r = f.resolve r := by
  cases h : f.child n a with
  | some c => rw [commit_old h]
  | none => rw [commit_new h, addChild_resolve]

theorem Shape.commit (hs : Shape f) (hn : n < f.nodes.size) (k : Bytes) (d : Int) :
    Shape (f.commit n a k d).1 := by
  cases h : f.child n a with
  | some c => rwa [commit_old h]
  | none =>
    rw [commit_new h]
    exact hs.addChild hn rfl rfl

theorem Attached.commit (ha : Attached f) (hs : Shape f) (hn : n < f.nodes.size) (k : Bytes)
    (d : Int) : Attached (f.commit n a k d).1 := by
  cases h : f.child n a with
  | some c => rwa [commit_old h]
  | none =>
    rw [commit_new h]
    exact ha.addChild hs hn rfl rfl h

theorem Edges.commit {R : Bytes → Int → ActionKey → Bytes → Int → Prop} (he : Edges R f)
    (hs : Shape f) (hn : n < f.nodes.size) {k : Bytes} {d : Int}
    (hR : R (f.node n).nodeKey (f.node n).depth a k d) : Edges R (f.commit n a k d).1 := by
  cases h : f.child n a with
  | some c => rwa [commit_old h]
  | none =>
    rw [commit_new h]
    exact he.addChild hs hn rfl hR

/-- Committing keeps every path and gives the parent's path one more step. -/
theorem Shape.nodeAt_commit (hs : Shape f) (k : Bytes) (d : Int) {r : Bytes} {p : List ActionKey}
    (hp : f.nodeAt r p = some n) (r' : Bytes) (q : List ActionKey) :
    (f.commit n a k d).1.nodeAt r' q =
      if r' = r ∧ q = p ++ [a] then some (f.commit n a k d).2 else f.nodeAt r' q := by
  cases h : f.child n a with
  | some c =>
    rw [commit_old h]
    split
    · rename_i hq
      obtain ⟨rfl, rfl⟩ := hq
      rw [nodeAt_snoc, hp, Option.bind_some, h]
    · rfl
  | none =>
    rw [commit_new h]
    exact hs.nodeAt_addChild rfl h hp r' q

/-- No node loses its path. -/
theorem Shape.nodeAt_commit_of_some (hs : Shape f) (k : Bytes) (d : Int) {r : Bytes}
    {p : List ActionKey} (hp : f.nodeAt r p = some n) {r' : Bytes} {q : List ActionKey} {m : NodeId}
    (hm : f.nodeAt r' q = some m) : (f.commit n a k d).1.nodeAt r' q = some m := by
  rw [hs.nodeAt_commit k d hp]
  split
  · rename_i hq
    obtain ⟨rfl, rfl⟩ := hq
    rw [nodeAt_snoc, hp, Option.bind_some] at hm
    rw [commit_old hm]
  · exact hm

/-- A committed chunk has no blob yet. -/
theorem Shape.published_commit (hs : Shape f) (k : Bytes) (d : Int) {r : Bytes}
    {p : List ActionKey} (hp : f.nodeAt r p = some n) :
    (f.commit n a k d).1.published = f.published := by
  cases h : f.child n a with
  | some c => rw [commit_old h]
  | none =>
    rw [commit_new h]
    exact hs.published_addChild rfl rfl h hp

end

/-- Worlds and paths stay. -/
structure Extends (f g : NamespaceForest) : Prop where
  resolve : ∀ {r ns}, f.resolve r = some ns → g.resolve r = some ns
  nodeAt : ∀ {r p n}, f.nodeAt r p = some n → g.nodeAt r p = some n

theorem Extends.refl (f : NamespaceForest) : Extends f f := ⟨id, id⟩

theorem Extends.trans {f g h : NamespaceForest} (hg : Extends f g) (hh : Extends g h) : Extends f h :=
  ⟨fun hr => hh.resolve (hg.resolve hr), fun hn => hh.nodeAt (hg.nodeAt hn)⟩

theorem Extends.sameTrie {f g : NamespaceForest} (h : SameTrie f g) : Extends f g :=
  ⟨fun hr => by rw [h.resolve]; exact hr, fun hn => by rw [h.nodeAt]; exact hn⟩

/-- Creating a world takes no path away. -/
theorem create_extends {f : NamespaceForest} (h : Shape f) (r c : Bytes) :
    Extends f (f.getOrCreateNamespace r c).1 := by
  cases hr : f.resolve r with
  | some ns =>
    rw [getOrCreate_old hr]
    exact Extends.refl f
  | none =>
    rw [getOrCreate_new hr]
    constructor
    · intro r' ns hr'
      rw [addWorld_resolve, if_neg, hr']
      rintro rfl
      rw [hr] at hr'
      cases hr'
    · intro r' p n hn
      rw [h.nodeAt_addWorld hr, if_neg, hn]
      rintro ⟨rfl, rfl⟩
      rw [nodeAt_nil, hr] at hn
      cases hn

/-- Committing a chunk takes no path away. -/
theorem commit_extends {f : NamespaceForest} (h : Shape f) {n : NodeId} {r : Bytes}
    {p : List ActionKey} (hn : f.nodeAt r p = some n) (a : ActionKey) (k : Bytes) (d : Int) :
    Extends f (f.commit n a k d).1 := by
  constructor
  · intro r' ns hr
    rw [commit_resolve, hr]
  · intro r' q m hm
    exact h.nodeAt_commit_of_some k d hn hm

theorem Extends.child {f g : NamespaceForest} (h : Extends f g) (hs : Shape f) (ha : Attached f)
    {n c : NodeId} {a : ActionKey} (hn : n < f.nodes.size) (hc : f.child n a = some c) :
    g.child n a = some c := by
  obtain ⟨r, p, hp⟩ := hs.exists_path ha hn
  have hpc : f.nodeAt r (p ++ [a]) = some c := by
    rw [nodeAt_snoc, hp]
    exact hc
  have := h.nodeAt hpc
  rw [nodeAt_snoc, h.nodeAt hp] at this
  exact this

end CacheSeek.Prefix
