import CacheSeek.Lib.JsonPrefix
import CacheSeek.Proofs.LastPayload
import CacheSeek.Stores.LocalDisk

namespace CacheSeek.Proofs.LocalDiskCrash
open CacheSeek.Lib CacheSeek.Prefix CacheSeek.Stores CacheSeek.Stores.LocalDisk
open CacheSeek.Proofs.KeyIdentity CacheSeek.Proofs.StoreSlots CacheSeek.Proofs.LastPayload

variable {τ : Type} {sha1 : Bytes → Bytes} {T : TorchBytes τ}

theorem path_injective (hs : Function.Injective sha1) : Function.Injective (path sha1) := by
  intro a b h
  have hlist := congrArg String.toList h
  simp only [path, String.toList_append] at hlist
  exact utf8_injective (hs (hex_injective (String.toList_inj.mp (List.append_cancel_right hlist))))

theorem text_utf8 (s : String) : text (utf8 s) = s := by rw [text, decodeUtf8_utf8, Option.getD_some]

/-- The store is a correct map, with one space of keys. -/
theorem localDisk_correct (hs : Function.Injective sha1) (hT : T.Lawful) :
    (localDiskTensorStore sha1 T).Correct T.spec := by
  have hne : ∀ {a b : String}, a ≠ b → path sha1 a ≠ path sha1 b := fun h he => h (path_injective hs he)
  constructor
  · intro b key t
    simp only [localDiskTensorStore, Dict.get?_set_self, hT.view_raw]
    rfl
  · intro b key key' t sp h
    simp only [localDiskTensorStore, Dict.get?_set_ne _ _ (hne h)]
  · intro b key key' raw sp h
    simp only [localDiskTensorStore, Dict.get?_set_ne _ _ (hne h)]
  · intro b key raw
    simp only [localDiskTensorStore, Dict.get?_set_self, Option.map_some, text_utf8]
  · intro b key key' raw h
    simp only [localDiskTensorStore, Dict.get?_set_ne _ _ (hne h)]
  · intro b key key' t h
    simp only [localDiskTensorStore, Dict.get?_set_ne _ _ (hne h)]

/-- The first bytes of a text decode to its first characters, if to anything. -/
theorem decodeUtf8_take {s t : String} {k : Nat} (h : decodeUtf8 ((utf8 s).take k) = some t) :
    t.toList <+: s.toList ∧ (k < (utf8 s).length → t ≠ s) := by
  have hbytes : utf8 t = (utf8 s).take k := by
    unfold decodeUtf8 String.fromUTF8? at h
    split at h
    · cases h
      rfl
    · cases h
  refine ⟨?_, ?_⟩
  · apply List.isPrefix_of_utf8Encode_append_eq_utf8Encode ⟨⟨(utf8 s).drop k⟩⟩
    rw [String.utf8Encode_toList, String.utf8Encode_toList]
    apply ByteArray.ext
    apply Array.toList_inj.mp
    have happend := congrArg (· ++ (utf8 s).drop k) hbytes
    simp only [List.take_append_drop] at happend
    simpa [utf8] using happend
  · intro hk he
    have hlen := congrArg List.length hbytes
    rw [he, List.length_take] at hlen
    omega

theorem toText_dumps (sp : TensorSpec) :
    ∃ j, Json.Bracketed j ∧ sp.toText = String.ofList (Json.dump Json.defaultStyle j) :=
  ⟨.arr _, trivial, rfl⟩

/-- A sidecar that was cut short says nothing. -/
theorem ofText_torn (sp : TensorSpec) {k : Nat} (hk : k < (utf8 sp.toText).length) :
    ∃ e, TensorSpec.ofText (text ((utf8 sp.toText).take k)) = .error e := by
  have hloads : Json.loads (text ((utf8 sp.toText).take k)) = none := by
    unfold text
    cases hdec : decodeUtf8 ((utf8 sp.toText).take k) with
    | none => rfl
    | some t =>
      obtain ⟨hpre, hne⟩ := decodeUtf8_take hdec
      obtain ⟨j, hj, htext⟩ := toText_dumps sp
      rw [htext, String.toList_ofList] at hpre
      have hshort : t.toList.length < (Json.dump Json.defaultStyle j).length := by
        refine Nat.lt_of_le_of_ne hpre.length_le fun he => hne hk ?_
        rw [htext, ← hpre.eq_of_length he, String.ofList_toList]
      have htake := List.prefix_iff_eq_take.mp hpre
      rw [Option.getD_some, ← String.ofList_toList (s := t), htake]
      exact Json.loads_take Json.defaultStyle hj hshort
  exact ⟨.valueError (text ((utf8 sp.toText).take k)), by rw [TensorSpec.ofText, hloads]⟩

/-- A file, by how far its last write got. -/
inductive FileState (α : Type) where
  | missing
  | torn
  | whole (a : α)

structure SlotFiles (τ : Type) where
  tensor : FileState τ
  sidecar : FileState TensorSpec

/-- A write of which the first `k` bytes of `n` are there. -/
def FileState.cut {α : Type} (a : α) (n k : Nat) : FileState α := if k < n then .torn else .whole a

inductive SlotOp (τ : Type) where
  | put (a : Slot) (t : τ)
  | read (a : Slot)
  | reopen
  | crashPut (a : Slot) (t : τ) (done : Nat) (torn : Option Nat)

def SlotOp.op : SlotOp τ → DiskOp τ
  | .put a t => .put a.key t
  | .read a => .read a.key
  | .reopen => .reopen
  | .crashPut a t done torn => .crashPut a.key t done torn

/-- The tensors of a slot have one shape and dtype. -/
def SlotOp.Fits (T : TorchBytes τ) (specOf : Slot → TensorSpec) : SlotOp τ → Prop
  | .put a t => T.spec t = specOf a
  | .crashPut a t _ _ => T.spec t = specOf a
  | _ => True

/-- What a put of `t` leaves of the slot's files when it gets this far. -/
def SlotFiles.crash (T : TorchBytes τ) (x : SlotFiles τ) (t : τ) : Nat → Option Nat → SlotFiles τ
  | 0, none => x
  | 0, some k => { x with tensor := .cut t (T.raw t).length k }
  | 1, none => { x with tensor := .whole t }
  | 1, some k => ⟨.whole t, .cut (T.spec t) (utf8 (T.spec t).toText).length k⟩
  | _ + 2, _ => ⟨.whole t, .whole (T.spec t)⟩

def SlotFiles.step (T : TorchBytes τ) (a : Slot) (x : SlotFiles τ) : SlotOp τ → SlotFiles τ
  | .put b t => if a = b then ⟨.whole t, .whole (T.spec t)⟩ else x
  | .crashPut b t done torn => if a = b then x.crash T t done torn else x
  | _ => x

def slotFiles (T : TorchBytes τ) (ops : List (SlotOp τ)) (a : Slot) : SlotFiles τ :=
  ops.foldl (SlotFiles.step T a) ⟨.missing, .missing⟩

def SlotFiles.Answers (x : SlotFiles τ) (res : Except PyError (Option τ)) : Prop :=
  match x.sidecar, x.tensor with
  | .missing, _ => res = .ok none
  | .whole _, .whole t => res = .ok (some t)
  | _, _ => ∃ e, res = .error e

/-- A file with the bytes of what it is to hold, or the first of them. -/
def FileState.File {α : Type} (full : α → Bytes) (ok : α → Prop) : FileState α → Option Bytes → Prop
  | .missing, file => file = none
  | .torn, file => ∃ a k, ok a ∧ k < (full a).length ∧ file = some ((full a).take k)
  | .whole a, file => ok a ∧ file = some (full a)

theorem FileState.File.cut {α : Type} (full : α → Bytes) {ok : α → Prop} {a : α} (ha : ok a) (k : Nat) :
    (FileState.cut a (full a).length k).File full ok (some ((full a).take k)) := by
  unfold FileState.cut
  split
  · rename_i hk
    exact ⟨a, k, ha, hk, rfl⟩
  · rename_i hk
    exact ⟨ha, by rw [List.take_of_length_le (Nat.le_of_not_lt hk)]⟩

section
variable (sha1 T) (specOf : Slot → TensorSpec)

/-- The files of all slots. A sidecar is not written before its tensor. -/
structure OnDisk (d : Disk UInt8) (x : Slot → SlotFiles τ) : Prop where
  tensor : ∀ a : Slot, (x a).tensor.File T.raw (fun t => T.spec t = specOf a) (d.get? (path sha1 a.key))
  sidecar : ∀ a : Slot,
    (x a).sidecar.File (fun sp => utf8 sp.toText) (· = specOf a) (d.get? (path sha1 (a.key ++ ":spec")))
  order : ∀ a, (x a).tensor = .missing → (x a).sidecar = .missing

structure Kept (s : TensorStoreTier (Disk UInt8)) (x : Slot → SlotFiles τ) : Prop where
  disk : OnDisk sha1 T specOf s.ts x
  specs : ∀ (a : Slot) {sp}, s.specs.get? a.key = some sp → sp = specOf a ∧ ∃ sp', (x a).sidecar = .whole sp'

end

variable {specOf : Slot → TensorSpec} {d : Disk UInt8} {x : Slot → SlotFiles τ} {s : TensorStoreTier (Disk UInt8)}

theorem OnDisk.writeTensor (h : OnDisk sha1 T specOf d x) (hs : Function.Injective sha1) (a : Slot) {part : FileState τ}
    {data : Bytes} (hpart : part.File T.raw (fun t => T.spec t = specOf a) (some data)) :
    OnDisk sha1 T specOf (d.set (path sha1 a.key) data) (Function.update x a { x a with tensor := part }) := by
  have hspec : ∀ b : Slot, path sha1 (b.key ++ ":spec") ≠ path sha1 a.key := fun b he =>
    Slot.key_ne_spec a b (path_injective hs he).symm
  refine ⟨?_, ?_, ?_⟩
  · intro b
    by_cases hb : b = a
    · subst hb
      rw [Function.update_self, Dict.get?_set_self]
      exact hpart
    · rw [Function.update_of_ne hb, Dict.get?_set_ne]
      · exact h.tensor b
      · exact fun he => hb (Slot.key_injective (path_injective hs he))
  · intro b
    rw [Dict.get?_set_ne _ _ (hspec b)]
    by_cases hb : b = a
    · subst hb
      rw [Function.update_self]
      exact h.sidecar b
    · rw [Function.update_of_ne hb]
      exact h.sidecar b
  · intro b
    by_cases hb : b = a
    · subst hb
      rw [Function.update_self]
      intro hmissing
      simp only at hmissing
      rw [hmissing] at hpart
      cases hpart
    · rw [Function.update_of_ne hb]
      exact h.order b

theorem OnDisk.writeSidecar (h : OnDisk sha1 T specOf d x) (hs : Function.Injective sha1) (a : Slot)
    {part : FileState TensorSpec} {data : Bytes} (hthere : (x a).tensor ≠ .missing)
    (hpart : part.File (fun sp => utf8 sp.toText) (· = specOf a) (some data)) :
    OnDisk sha1 T specOf (d.set (path sha1 (a.key ++ ":spec")) data)
      (Function.update x a { x a with sidecar := part }) := by
  refine ⟨?_, ?_, ?_⟩
  · intro b
    rw [Dict.get?_set_ne _ _ fun he => Slot.key_ne_spec b a (path_injective hs he)]
    by_cases hb : b = a
    · subst hb
      rw [Function.update_self]
      exact h.tensor b
    · rw [Function.update_of_ne hb]
      exact h.tensor b
  · intro b
    by_cases hb : b = a
    · subst hb
      rw [Function.update_self, Dict.get?_set_self]
      exact hpart
    · rw [Function.update_of_ne hb, Dict.get?_set_ne _ _ fun he => spec_key_ne hb (path_injective hs he)]
      exact h.sidecar b
  · intro b
    by_cases hb : b = a
    · subst hb
      rw [Function.update_self]
      exact fun hmissing => absurd hmissing hthere
    · rw [Function.update_of_ne hb]
      exact h.order b

/-- A put that gets as far as `done` and `torn` say. -/
theorem OnDisk.crash (h : OnDisk sha1 T specOf d x) (hs : Function.Injective sha1) (a : Slot) {t : τ}
    (ht : T.spec t = specOf a) (done : Nat) (torn : Option Nat) :
    OnDisk sha1 T specOf (crashed d (putSteps sha1 T a.key t) done torn)
      (Function.update x a ((x a).crash T t done torn)) := by
  have htensor := @OnDisk.writeTensor _ _ _ _ _ _ h hs a (.whole t) (T.raw t) ⟨ht, rfl⟩
  have hthere : (Function.update x a { x a with tensor := .whole t } a).tensor ≠ .missing := by
    rw [Function.update_self]
    exact fun he => by cases he
  have hwrite := fun (part : FileState TensorSpec) (data : Bytes) hpart =>
    @OnDisk.writeSidecar _ _ _ _ _ _ htensor hs a part data hthere hpart
  simp only [Function.update_self, Function.update_idem] at hwrite
  cases done with
  | zero =>
    cases torn with
    | none =>
      have hsame : Function.update x a ((x a).crash T t 0 none) = x := Function.update_eq_self a x
      rw [hsame]
      exact h
    | some k => exact h.writeTensor hs a (FileState.File.cut T.raw ht k)
  | succ done =>
    cases done with
    | zero =>
      cases torn with
      | none => exact htensor
      | some k =>
        have hcut : (FileState.cut (T.spec t) (utf8 (T.spec t).toText).length k).File (fun sp => utf8 sp.toText)
            (· = specOf a) (some ((utf8 (T.spec t).toText).take k)) :=
          @FileState.File.cut TensorSpec (fun sp => utf8 sp.toText) (· = specOf a) (T.spec t) ht k
        exact hwrite (.cut (T.spec t) (utf8 (T.spec t).toText).length k) ((utf8 (T.spec t).toText).take k) hcut
    | succ done => exact hwrite (.whole (T.spec t)) (utf8 (T.spec t).toText) ⟨ht, rfl⟩

theorem step_update (T : TorchBytes τ) (x : Slot → SlotFiles τ) (a : Slot) (y : SlotFiles τ) (op : SlotOp τ)
    (h : ∀ b, SlotFiles.step T b (x b) op = if b = a then y else x b) :
    (fun b => SlotFiles.step T b (x b) op) = Function.update x a y := by
  funext b
  rw [h b]
  by_cases hb : b = a
  · rw [if_pos hb, hb, Function.update_self]
  · rw [if_neg hb, Function.update_of_ne hb]

/-- What a read answers, and that it changes nothing but the specs in memory. -/
theorem Kept.read (h : Kept sha1 T specOf s x) (hT : T.Lawful) (a : Slot) :
    (x a).Answers (s.getOne (localDiskTensorStore sha1 T) a.key).1 ∧
      Kept sha1 T specOf (s.getOne (localDiskTensorStore sha1 T) a.key).2 x := by
  have htensor := h.disk.tensor a
  have hsidecar := h.disk.sidecar a
  have horder := h.disk.order a
  -- with the right spec at hand, by what the tensor's file holds
  have hview : (x a).tensor ≠ .missing → ∀ sp, (x a).sidecar = .whole sp →
      (x a).Answers ((localDiskTensorStore sha1 T).getTensor s.ts a.key (specOf a)) := by
    intro hthere sp hsp
    unfold SlotFiles.Answers localDiskTensorStore
    cases ht : (x a).tensor with
    | missing => exact absurd ht hthere
    | torn =>
      rw [ht] at htensor
      obtain ⟨t, k, hspec, hk, hfile⟩ := htensor
      obtain ⟨e, he⟩ := hT.view_size t ((T.raw t).take k) (by rw [List.length_take]; omega)
      simp only [hsp, hfile, ← hspec, he]
      exact ⟨e, rfl⟩
    | whole t =>
      rw [ht] at htensor
      simp only [hsp, htensor.2, ← htensor.1, hT.view_raw]
      rfl
  have hget : (localDiskTensorStore sha1 T).get s.ts (a.key ++ ":spec") =
      (s.ts.get? (path sha1 (a.key ++ ":spec"))).map text := rfl
  unfold TensorStoreTier.getOne
  cases hspecs : s.specs.get? a.key with
  | some sp =>
    obtain ⟨rfl, sp', hsp'⟩ := h.specs a hspecs
    refine ⟨hview (fun hm => ?_) sp' hsp', h⟩
    rw [horder hm] at hsp'
    cases hsp'
  | none =>
    cases hside : (x a).sidecar with
    | missing =>
      rw [hside] at hsidecar
      simp only [FileState.File] at hsidecar
      simp only [hget, hsidecar, Option.map_none]
      exact ⟨by simp only [SlotFiles.Answers, hside], h⟩
    | torn =>
      rw [hside] at hsidecar
      obtain ⟨sp, k, -, hk, hfile⟩ := hsidecar
      obtain ⟨e, he⟩ := ofText_torn sp hk
      simp only [hget, hfile, Option.map_some, he]
      exact ⟨by simp only [SlotFiles.Answers, hside]; exact ⟨e, rfl⟩, h⟩
    | whole sp =>
      rw [hside] at hsidecar
      obtain ⟨rfl, hfile⟩ := hsidecar
      simp only [hget, hfile, Option.map_some, text_utf8, ofText_toText]
      refine ⟨hview (fun hm => ?_) _ hside, h.disk, ?_⟩
      · rw [horder hm] at hside
        cases hside
      · intro b sp hb
        by_cases he : b = a
        · subst he
          rw [Dict.get?_set_self, Option.some.injEq] at hb
          exact ⟨hb.symm, _, hside⟩
        · rw [Dict.get?_set_ne _ _ fun hk => he (Slot.key_injective hk)] at hb
          exact h.specs b hb

theorem Kept.step (h : Kept sha1 T specOf s x) (hs : Function.Injective sha1) (hT : T.Lawful) (op : SlotOp τ)
    (hop : op.Fits T specOf) :
    Kept sha1 T specOf (LocalDisk.step sha1 T s op.op) fun a => SlotFiles.step T a (x a) op := by
  cases op with
  | put a t =>
    have hdisk := h.disk.crash hs a hop 2 none
    rw [step_update T x a ⟨.whole t, .whole (T.spec t)⟩ (.put a t) fun _ => rfl]
    refine ⟨hdisk, ?_⟩
    intro b sp hb
    by_cases he : b = a
    · subst he
      simp only [SlotOp.op, LocalDisk.step, TensorStoreTier.putOne, Dict.get?_set_self, Option.some.injEq] at hb
      rw [Function.update_self]
      exact ⟨hb.symm.trans hop, _, rfl⟩
    · simp only [SlotOp.op, LocalDisk.step, TensorStoreTier.putOne,
        Dict.get?_set_ne _ _ fun hk => he (Slot.key_injective hk)] at hb
      rw [Function.update_of_ne he]
      exact h.specs b hb
  | read a => exact (h.read hT a).2
  | reopen => exact ⟨h.disk, fun _ _ hb => by cases hb⟩
  | crashPut a t done torn =>
    rw [step_update T x a ((x a).crash T t done torn) (.crashPut a t done torn) fun b => by
      simp only [SlotFiles.step]
      split
      · rename_i hb
        rw [hb]
      · rfl]
    exact ⟨h.disk.crash hs a hop done torn, fun _ _ hb => by cases hb⟩

theorem empty_kept : Kept sha1 T specOf { ts := ∅ } fun _ => ⟨.missing, .missing⟩ :=
  ⟨⟨fun _ => rfl, fun _ => rfl, fun _ _ => rfl⟩, fun _ _ hb => by cases hb⟩

theorem run_kept (hs : Function.Injective sha1) (hT : T.Lawful) {ops : List (SlotOp τ)}
    (hops : ∀ op ∈ ops, op.Fits T specOf) (h : Kept sha1 T specOf s x) :
    Kept sha1 T specOf (LocalDisk.run sha1 T s (ops.map SlotOp.op)) fun a => ops.foldl (SlotFiles.step T a) (x a) := by
  induction ops generalizing s x with
  | nil => exact h
  | cons op ops ih =>
    have hstep := h.step hs hT op (hops op List.mem_cons_self)
    exact ih (fun o ho => hops o (List.mem_cons_of_mem op ho)) hstep

/-- Processes may die at any byte of any put. A read gives the tensor whose put was the last to write the slot's file
whole, nothing where no put got to the sidecar, and an error in between: never another tensor. -/
theorem torn_puts_never_misread (hs : Function.Injective sha1) (hT : T.Lawful) {ops : List (SlotOp τ)}
    (hops : ∀ op ∈ ops, op.Fits T specOf) (a : Slot) :
    (slotFiles T ops a).Answers
      ((LocalDisk.run sha1 T { ts := ∅ } (ops.map SlotOp.op)).getOne (localDiskTensorStore sha1 T) a.key).1 :=
  ((run_kept hs hT hops empty_kept).read hT a).1

def byteTensors : TorchBytes Bytes :=
  { spec := fun t => ⟨[t.length], "uint8"⟩
    raw := id
    view := fun b sp => if sp.shape = [b.length] then .ok b else .error (.runtimeError "invalid shape") }

theorem byteTensors_lawful : byteTensors.Lawful := by
  constructor
  · intro t
    exact if_pos rfl
  · intro t b hb
    have hshape : ¬ [t.length] = [b.length] := fun he => hb (List.cons.inj he).1.symm
    exact ⟨_, if_neg hshape⟩

/-- The first slot is put, and again up to its first byte; the second gets its tensor and no sidecar. -/
def demoOps : List (SlotOp Bytes) :=
  [.put (.latent [1]) [5, 6], .crashPut (.latent [1]) [7, 8] 0 (some 1), .read (.latent [1]),
    .crashPut (.latent [2]) [7, 8] 1 none]

theorem torn_puts_never_misread_two_slots :
    (∃ e, ((LocalDisk.run id byteTensors { ts := ∅ } (demoOps.map SlotOp.op)).getOne
      (localDiskTensorStore id byteTensors) (Slot.latent [1]).key).1 = .error e) ∧
    ((LocalDisk.run id byteTensors { ts := ∅ } (demoOps.map SlotOp.op)).getOne
      (localDiskTensorStore id byteTensors) (Slot.latent [2]).key).1 = .ok none := by
  have hops : ∀ op ∈ demoOps, op.Fits byteTensors fun _ => ⟨[2], "uint8"⟩ := by
    intro op hop
    simp only [demoOps, List.mem_cons, List.not_mem_nil, or_false] at hop
    rcases hop with rfl | rfl | rfl | rfl
    · rfl
    · rfl
    · trivial
    · rfl
  have h := torn_puts_never_misread (fun _ _ h => h) byteTensors_lawful hops
  exact ⟨h (.latent [1]), h (.latent [2])⟩

end CacheSeek.Proofs.LocalDiskCrash
