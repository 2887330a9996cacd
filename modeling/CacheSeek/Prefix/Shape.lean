import CacheSeek.Prefix.Trie
import CacheSeek.Lib.LongestPrefix
import Mathlib.Data.List.Induction

namespace CacheSeek.Prefix
open CacheSeek.Lib

namespace NamespaceForest

/-- The node an action path leads to from `n`, published or not. -/
def walk (f : NamespaceForest) (n : NodeId) : List ActionKey → Option NodeId
  | [] => some n
  | a :: path => (f.child n a).bind fun c => f.walk c path

def nodeAt (f : NamespaceForest) (r : Bytes) (path : List ActionKey) : Option NodeId :=
  (f.resolve r).bind fun ns => f.walk ns.root path

def published (f : NamespaceForest) (r : Bytes) (path : List ActionKey) : Bool :=
  match f.nodeAt r path with
  | none => false
  | some n => f.hasKv n

/-- A node's place in its trie, as opposed to what is stored for it. -/
def link (f : NamespaceForest) (n : NodeId) :
    Bytes × ActionKey × Int × Option NodeId × Dict ActionKey NodeId :=
  let p := f.node n
  (p.nodeKey, p.action, p.depth, p.parent, p.children)

theorem walk_append (f : NamespaceForest) (n : NodeId) (p q : List ActionKey) :
    f.walk n (p ++ q) = (f.walk n p).bind fun m => f.walk m q := by
  induction p generalizing n with
  | nil => rfl
  | cons a p ih =>
    simp only [List.cons_append, walk]
    cases f.child n a with
    | none => rfl
    | some c => exact ih c

theorem nodeAt_append (f : NamespaceForest) (r : Bytes) (p q : List ActionKey) :
    f.nodeAt r (p ++ q) = (f.nodeAt r p).bind fun m => f.walk m q := by
  unfold nodeAt
  cases f.resolve r with
  | none => rfl
  | some ns => exact f.walk_append ns.root p q

theorem nodeAt_snoc (f : NamespaceForest) (r : Bytes) (p : List ActionKey) (a : ActionKey) :
    f.nodeAt r (p ++ [a]) = (f.nodeAt r p).bind fun m => f.child m a := by
  rw [nodeAt_append]
  congr 1
  funext m
  simp only [walk]
  cases f.child m a <;> rfl

theorem nodeAt_nil (f : NamespaceForest) (r : Bytes) :
    f.nodeAt r [] = (f.resolve r).map Namespace.root := by
  unfold nodeAt
  cases f.resolve r <;> rfl

end NamespaceForest

open NamespaceForest

/-- Roots and child links are in order, and children come after their parents. -/
structure Shape (f : NamespaceForest) : Prop where
  root_hash : ∀ {r ns}, f.resolve r = some ns → ns.rootHash = r
  root_lt : ∀ {r ns}, f.resolve r = some ns → ns.root < f.nodes.size
  root_key : ∀ {r ns}, f.resolve r = some ns → (f.node ns.root).nodeKey = r
  root_depth : ∀ {r ns}, f.resolve r = some ns → (f.node ns.root).depth = -1
  root_parent : ∀ {r ns}, f.resolve r = some ns → (f.node ns.root).parent = none
  child_lt : ∀ {n a c}, n < f.nodes.size → f.child n a = some c → n < c ∧ c < f.nodes.size
  child_parent : ∀ {n a c}, n < f.nodes.size → f.child n a = some c → (f.node c).parent = some n
  child_action : ∀ {n a c}, n < f.nodes.size → f.child n a = some c → (f.node c).action = a
  parent_lt : ∀ {n c}, c < f.nodes.size → (f.node c).parent = some n → n < c
  rooted : ∀ {n}, n < f.nodes.size → (f.node n).parent = none →
    ∃ ns, f.resolve (f.node n).nodeKey = some ns ∧ ns.root = n

/-- Every node is where its parent looks for it. -/
def Attached (f : NamespaceForest) : Prop :=
  ∀ ⦃n c⦄, c < f.nodes.size → (f.node c).parent = some n → f.child n (f.node c).action = some c

/-- The trie is the same; only what the nodes hold may differ. -/
structure SameTrie (f g : NamespaceForest) : Prop where
  namespaces : g.namespaces = f.namespaces
  size : g.nodes.size = f.nodes.size
  link : ∀ n, g.link n = f.link n

namespace SameTrie

variable {f g h : NamespaceForest}

theorem refl (f : NamespaceForest) : SameTrie f f := ⟨rfl, rfl, fun _ => rfl⟩

theorem trans (hg : SameTrie f g) (hh : SameTrie g h) : SameTrie f h :=
  ⟨hh.namespaces.trans hg.namespaces, hh.size.trans hg.size, fun n => (hh.link n).trans (hg.link n)⟩

theorem nodeKey (hs : SameTrie f g) (n : NodeId) : (g.node n).nodeKey = (f.node n).nodeKey :=
  congrArg (·.1) (hs.link n)

theorem action (hs : SameTrie f g) (n : NodeId) : (g.node n).action = (f.node n).action :=
  congrArg (·.2.1) (hs.link n)

theorem depth (hs : SameTrie f g) (n : NodeId) : (g.node n).depth = (f.node n).depth :=
  congrArg (·.2.2.1) (hs.link n)

theorem parent (hs : SameTrie f g) (n : NodeId) : (g.node n).parent = (f.node n).parent :=
  congrArg (·.2.2.2.1) (hs.link n)

theorem children (hs : SameTrie f g) (n : NodeId) : (g.node n).children = (f.node n).children :=
  congrArg (·.2.2.2.2) (hs.link n)

theorem child (hs : SameTrie f g) (n : NodeId) (a : ActionKey) : g.child n a = f.child n a := by
  unfold NamespaceForest.child
  rw [hs.children n]

theorem resolve (hs : SameTrie f g) (r : Bytes) : g.resolve r = f.resolve r := by
  unfold NamespaceForest.resolve
  rw [hs.namespaces]

theorem walk (hs : SameTrie f g) (n : NodeId) (p : List ActionKey) : g.walk n p = f.walk n p := by
  induction p generalizing n with
  | nil => rfl
  | cons a p ih =>
    simp only [NamespaceForest.walk, hs.child n a]
    cases f.child n a with
    | none => rfl
    | some c => exact ih c

theorem nodeAt (hs : SameTrie f g) (r : Bytes) (p : List ActionKey) : g.nodeAt r p = f.nodeAt r p := by
  unfold NamespaceForest.nodeAt
  rw [hs.resolve r]
  congr 1
  funext ns
  exact hs.walk ns.root p

theorem shape (hs : SameTrie f g) (h : Shape f) : Shape g where
  root_hash hr := h.root_hash (hs.resolve _ ▸ hr)
  root_lt hr := by rw [hs.size]; exact h.root_lt (hs.resolve _ ▸ hr)
  root_key hr := by rw [hs.nodeKey]; exact h.root_key (hs.resolve _ ▸ hr)
  root_depth hr := by rw [hs.depth]; exact h.root_depth (hs.resolve _ ▸ hr)
  root_parent hr := by rw [hs.parent]; exact h.root_parent (hs.resolve _ ▸ hr)
  child_lt hn hc := by
    rw [hs.size] at hn ⊢
    exact h.child_lt hn (hs.child _ _ ▸ hc)
  child_parent hn hc := by
    rw [hs.size] at hn
    rw [hs.parent]
    exact h.child_parent hn (hs.child _ _ ▸ hc)
  child_action hn hc := by
    rw [hs.size] at hn
    rw [hs.action]
    exact h.child_action hn (hs.child _ _ ▸ hc)
  parent_lt hc hp := by
    rw [hs.size] at hc
    exact h.parent_lt hc (hs.parent _ ▸ hp)
  rooted hn hp := by
    rw [hs.size] at hn
    rw [hs.nodeKey, hs.resolve]
    exact h.rooted hn (hs.parent _ ▸ hp)

theorem attached (hs : SameTrie f g) (h : Attached f) : Attached g := by
  intro n c hc hp
  rw [hs.size] at hc
  rw [hs.action, hs.child]
  exact h hc (hs.parent _ ▸ hp)

/-- An update of a node that leaves its place alone. -/
theorem modifyNode (f : NamespaceForest) (n : NodeId) (u : TrieNode → TrieNode)
    (hu : ∀ p, (u p).nodeKey = p.nodeKey ∧ (u p).action = p.action ∧ (u p).depth = p.depth ∧
      (u p).parent = p.parent ∧ (u p).children = p.children) :
    SameTrie f (f.modifyNode n u) := by
  refine ⟨rfl, rfl, fun m => ?_⟩
  obtain ⟨h1, h2, h3, h4, h5⟩ := hu (f.node n)
  apply Heap.get_modify_frame f.nodes n u
    (fun p => (p.nodeKey, p.action, p.depth, p.parent, p.children))
  simp only [Prod.mk.injEq]
  exact ⟨h1, h2, h3, h4, h5⟩

end SameTrie

namespace Shape

variable {f : NamespaceForest}

/-- Edges lead to nodes of the forest. -/
theorem walk_lt (h : Shape f) {n m : NodeId} {p : List ActionKey} (hn : n < f.nodes.size)
    (hw : f.walk n p = some m) : m < f.nodes.size := by
  induction p generalizing n with
  | nil =>
    cases hw
    exact hn
  | cons a p ih =>
    obtain ⟨c, hc, hw⟩ := Option.bind_eq_some_iff.mp hw
    exact ih (h.child_lt hn hc).2 hw

theorem nodeAt_lt (h : Shape f) {r : Bytes} {p : List ActionKey} {n : NodeId}
    (hn : f.nodeAt r p = some n) : n < f.nodes.size := by
  obtain ⟨ns, hr, hw⟩ := Option.bind_eq_some_iff.mp hn
  exact h.walk_lt (h.root_lt hr) hw

/-- The last step to a node goes from its parent along its action. -/
theorem nodeAt_snoc_iff (h : Shape f) {r : Bytes} {p : List ActionKey} {a : ActionKey} {n : NodeId} :
    f.nodeAt r (p ++ [a]) = some n ↔ ∃ m, f.nodeAt r p = some m ∧ f.child m a = some n ∧
      (f.node n).parent = some m ∧ (f.node n).action = a := by
  rw [nodeAt_snoc, Option.bind_eq_some_iff]
  constructor
  · rintro ⟨m, hm, hc⟩
    exact ⟨m, hm, hc, h.child_parent (h.nodeAt_lt hm) hc, h.child_action (h.nodeAt_lt hm) hc⟩
  · rintro ⟨m, hm, hc, _⟩
    exact ⟨m, hm, hc⟩

theorem nodeAt_nil_iff {r : Bytes} {n : NodeId} :
    f.nodeAt r [] = some n ↔ ∃ ns, f.resolve r = some ns ∧ ns.root = n := by
  rw [nodeAt_nil, Option.map_eq_some_iff]

/-- A node lies on one path of one world. -/
theorem nodeAt_inj (h : Shape f) {r r' : Bytes} {p p' : List ActionKey} {n : NodeId}
    (h1 : f.nodeAt r p = some n) (h2 : f.nodeAt r' p' = some n) : r = r' ∧ p = p' := by
  induction p using List.reverseRecOn generalizing n p' with
  | nil =>
    obtain ⟨ns, hr, rfl⟩ := nodeAt_nil_iff.mp h1
    rcases List.eq_nil_or_concat p' with rfl | ⟨q, a, rfl⟩
    · obtain ⟨ns', hr', he⟩ := nodeAt_nil_iff.mp h2
      refine ⟨?_, rfl⟩
      rw [← h.root_key hr, ← he, h.root_key hr']
    · rw [List.concat_eq_append] at h2
      obtain ⟨m, _, _, hp, _⟩ := h.nodeAt_snoc_iff.mp h2
      rw [h.root_parent hr] at hp
      cases hp
  | append_singleton p a ih =>
    obtain ⟨m, hm, _, hp, rfl⟩ := h.nodeAt_snoc_iff.mp h1
    rcases List.eq_nil_or_concat p' with rfl | ⟨q, b, rfl⟩
    · obtain ⟨ns', hr', rfl⟩ := nodeAt_nil_iff.mp h2
      rw [h.root_parent hr'] at hp
      cases hp
    · rw [List.concat_eq_append] at h2 ⊢
      obtain ⟨m', hm', _, hp', rfl⟩ := h.nodeAt_snoc_iff.mp h2
      rw [hp] at hp'
      cases hp'
      obtain ⟨rfl, rfl⟩ := ih hm hm'
      exact ⟨rfl, rfl⟩

/-- A world's root stands at depth -1. -/
theorem nodeAt_depth (h : Shape f)
    (hd : ∀ {n a c}, n < f.nodes.size → f.child n a = some c →
      (f.node c).depth = (f.node n).depth + 1)
    {r : Bytes} {p : List ActionKey} {n : NodeId} (hn : f.nodeAt r p = some n) :
    (f.node n).depth = (p.length : Int) - 1 := by
  induction p using List.reverseRecOn generalizing n with
  | nil =>
    obtain ⟨ns, hr, rfl⟩ := nodeAt_nil_iff.mp hn
    rw [h.root_depth hr]
    rfl
  | append_singleton p a ih =>
    obtain ⟨m, hm, hc, _⟩ := h.nodeAt_snoc_iff.mp hn
    rw [hd (h.nodeAt_lt hm) hc, ih hm, List.length_append, List.length_singleton]
    omega

/-- Every node has a path when all of them are attached. -/
theorem exists_path (h : Shape f) (ha : Attached f) {n : NodeId} (hn : n < f.nodes.size) :
    ∃ r p, f.nodeAt r p = some n := by
  induction n using Nat.strongRecOn with
  | ind n ih =>
    cases hp : (f.node n).parent with
    | none =>
      obtain ⟨ns, hr, he⟩ := h.rooted hn hp
      exact ⟨_, [], nodeAt_nil_iff.mpr ⟨ns, hr, he⟩⟩
    | some m =>
      have hm := h.parent_lt hn hp
      obtain ⟨r, p, hrp⟩ := ih m hm (Nat.lt_trans hm hn)
      exact ⟨r, p ++ [(f.node n).action],
        h.nodeAt_snoc_iff.mpr ⟨m, hrp, ha hn hp, hp, rfl⟩⟩

/-- The descent ends at the node of the longest published prefix. -/
theorem descend_eq (h : Shape f) {r : Bytes} (pre as : List ActionKey) {n : NodeId} (k : Nat)
    (hn : f.nodeAt r pre = some n) :
    ∃ m, f.descend n k as = (m, k + longestFrom (f.published r) pre as) ∧
      f.nodeAt r (pre ++ as.take (longestFrom (f.published r) pre as)) = some m := by
  induction as generalizing pre n k with
  | nil => exact ⟨n, rfl, by simpa [longestFrom] using hn⟩
  | cons a as ih =>
    have hp : f.published r (pre ++ [a]) = match f.child n a with
        | none => false
        | some c => f.hasKv c := by
      unfold published
      rw [nodeAt_snoc, hn, Option.bind_some]
    simp only [descend, longestFrom, hp]
    cases hc : f.child n a with
    | none => exact ⟨n, by simp, by simpa using hn⟩
    | some c =>
      have ha := h.child_action (h.nodeAt_lt hn) hc
      by_cases hk : f.hasKv c = true
      · obtain ⟨m, hd, hm⟩ := ih (pre ++ [a]) (n := c) (k + 1) (by rw [nodeAt_snoc, hn]; exact hc)
        refine ⟨m, ?_, ?_⟩
        · simp only [hk, ha, ne_eq, not_true_eq_false, decide_false, Bool.not_true, Bool.or_self,
            Bool.false_eq_true, ↓reduceIte, hd, Prod.mk.injEq, true_and]
          omega
        · simpa [hk] using hm
      · exact ⟨n, by simp [hk], by simpa [hk] using hn⟩

/-- The loop stops at the first chunk without a ready blob, so it measures the longest published
prefix. -/
theorem lookup_eq (h : Shape f) {r : Bytes} {ns : Namespace} (hr : f.resolve r = some ns)
    (as : List ActionKey) :
    f.lookup r as = ⟨some ns, f.nodeAt r (as.take (longest (f.published r) as)),
      longest (f.published r) as⟩ := by
  obtain ⟨m, hd, hm⟩ := h.descend_eq [] as 0 (nodeAt_nil_iff.mpr ⟨ns, hr, rfl⟩)
  rw [List.nil_append] at hm
  unfold lookup resolve at *
  rw [hr, longest, hm]
  simp only [hd, Nat.zero_add]

/-- An unknown world matches nothing. -/
theorem lookup_none (f : NamespaceForest) {r : Bytes} (hr : f.resolve r = none)
    (as : List ActionKey) : f.lookup r as = ⟨none, none, 0⟩ := by
  unfold lookup resolve at *
  rw [hr]

/-- What `lookup` answers is the longest published prefix, in every world. -/
theorem matchedLen_eq (h : Shape f) (r : Bytes) (as : List ActionKey) :
    (f.lookup r as).matchedLen = longest (f.published r) as := by
  cases hr : f.resolve r with
  | some ns => rw [h.lookup_eq hr]
  | none =>
    rw [lookup_none f hr]
    cases as with
    | nil => rfl
    | cons a as => simp [longest, longestFrom, published, nodeAt, hr]

end Shape

end CacheSeek.Prefix
