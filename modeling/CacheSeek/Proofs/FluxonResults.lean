import CacheSeek.Stores.Fluxon

namespace CacheSeek.Stores
open CacheSeek.Lib CacheSeek.Prefix CacheSeek.Approximate

variable {α β : Type}

section
variable (op : String) (onErr : Option Failure → Method β) (onOk : α → Method β) (u : Uses)

theorem settle_raises (exc : Failure) : settle op (.raises exc) onErr onOk u = (.error exc, u) := rfl

theorem settle_returnsNone : settle op .returnsNone onErr onOk u =
    onErr (some ⟨"RuntimeError", op ++ " returned None"⟩) u := rfl

theorem settle_ok (v : α) : settle op (.returns (.ok (some v))) onErr onOk u =
    onOk v ⟨u.received + 1, u.consumed ++ [u.received]⟩ := rfl

/-- An Ok without a value is consumed by both unwraps. -/
theorem settle_okNone : settle op (.returns (.ok none)) onErr onOk u =
    onErr none ⟨u.received + 1, u.consumed ++ [u.received] ++ [u.received]⟩ := rfl

theorem settle_err (e : Failure) : settle op (.returns (.err e)) onErr onOk u =
    onErr (some e) ⟨u.received + 1, u.consumed ++ [u.received]⟩ := rfl

end

section
variable (onErr : Failure → Method β) (onOk : Option α → Method β) (u : Uses)

theorem settleAccess_raises (exc : Failure) : settleAccess (.raises exc) onErr onOk u = (.error exc, u) := rfl

theorem settleAccess_returnsNone : settleAccess .returnsNone onErr onOk u =
    (.error ⟨"AttributeError", "'NoneType' object has no attribute 'is_ok'"⟩, u) := rfl

theorem settleAccess_ok (v : Option α) : settleAccess (.returns (.ok v)) onErr onOk u =
    onOk v ⟨u.received + 1, u.consumed ++ [u.received]⟩ := rfl

theorem settleAccess_err (e : Failure) : settleAccess (.returns (.err e)) onErr onOk u =
    onErr e ⟨u.received + 1, u.consumed ++ [u.received]⟩ := rfl

end

/-- Where every Result is consumed before, every Result is consumed after. -/
def Clean (x : Method α) : Prop := ∀ u : Uses, u.AllConsumed → (x u).2.AllConsumed

theorem allConsumed_next {u : Uses} (h : u.AllConsumed) {more : List Nat} (hm : u.received ∈ more) :
    Uses.AllConsumed ⟨u.received + 1, u.consumed ++ more⟩ := by
  intro i hi
  rcases Nat.lt_succ_iff_lt_or_eq.mp hi with hi | rfl
  · exact List.mem_append_left _ (h i hi)
  · exact List.mem_append_right _ hm

theorem clean_pure (a : α) : Clean (Method.pure a) := fun _ hu => hu

theorem clean_throw (exc : Failure) : Clean (Method.throw exc : Method α) := fun _ hu => hu

/-- Results stay consumed along a sequence of native calls. -/
theorem clean_bind {x : Method α} {f : α → Method β} (hx : Clean x) (hf : ∀ a, Clean (f a)) :
    Clean (Method.bind x f) := by
  intro u hu
  have hxu := hx u hu
  unfold Method.bind
  split
  · rename_i exc u' heq
    rw [heq] at hxu
    exact hxu
  · rename_i a u' heq
    rw [heq] at hxu
    exact hf a u' hxu

theorem clean_wrap {x : Method α} (context : String) (hx : Clean x) : Clean (Method.wrap context x) := by
  intro u hu
  have hxu := hx u hu
  unfold Method.wrap
  split <;> (rename_i heq; rw [heq] at hxu; exact hxu)

/-- Every branch consumes the call's result before it goes on. -/
theorem clean_settle {op : String} {call : NativeCall α} {onErr : Option Failure → Method β}
    {onOk : α → Method β} (herr : ∀ e, Clean (onErr e)) (hok : ∀ v, Clean (onOk v)) :
    Clean (settle op call onErr onOk) := by
  intro u hu
  cases call with
  | raises exc => exact hu
  | returnsNone => exact herr _ u hu
  | returns res =>
    cases res with
    | err e => exact herr _ _ (allConsumed_next hu (by simp))
    | ok value =>
      cases value with
      | some v => exact hok v _ (allConsumed_next hu (by simp))
      | none =>
        rw [settle_okNone, List.append_assoc]
        exact herr _ _ (allConsumed_next hu (by simp))

theorem clean_settleAccess {call : NativeCall α} {onErr : Failure → Method β} {onOk : Option α → Method β}
    (herr : ∀ e, Clean (onErr e)) (hok : ∀ v, Clean (onOk v)) : Clean (settleAccess call onErr onOk) := by
  intro u hu
  cases call with
  | raises exc => exact hu
  | returnsNone => exact hu
  | returns res =>
    cases res with
    | err e => exact herr e _ (allConsumed_next hu (by simp))
    | ok value => exact hok value _ (allConsumed_next hu (by simp))

theorem clean_unlessMissing (err : Option Failure) (missing : β) (exc : Failure) :
    Clean (unlessMissing err missing exc) := by
  unfold unlessMissing
  split
  · exact clean_pure _
  · exact clean_throw _

namespace FluxonKVStore

variable {S T : Type} {repr : String → String} {key : String}

theorem payloadBytes_clean (d : Option (MemPayload T)) : Clean (payloadBytes repr key d) := by
  unfold payloadBytes
  split
  · exact clean_pure _
  all_goals exact clean_throw _

theorem extractBytes_clean (v : ValueObject T) : Clean (extractBytes repr key v) := by
  cases v with
  | bytes b => exact clean_pure b
  | other typeName => exact clean_throw _
  | holder access => exact clean_settleAccess (fun _ => clean_throw _) payloadBytes_clean

theorem get_clean (reply : GetReply T) : Clean (get repr key reply) :=
  clean_wrap _ <| clean_settle (fun _ => clean_unlessMissing _ _ _) fun _ =>
    clean_settle (fun _ => clean_unlessMissing _ _ _) fun v =>
      clean_bind (extractBytes_clean v) fun _ => clean_pure _

theorem putAs_clean (op : String) (reply : PutReply) : Clean (putAs op reply) :=
  clean_settle (fun _ => clean_throw _) fun _ => clean_settle (fun _ => clean_throw _) fun _ => clean_pure _

theorem remove_clean (reply : RemoveReply) : Clean (remove repr key reply) :=
  clean_wrap _ <| clean_settle (fun _ => clean_unlessMissing _ _ _) fun _ => clean_pure _

theorem valueTensor_clean (frombuffer : Bytes → Except Failure T) (v : ValueObject T) :
    Clean (valueTensor frombuffer v) := by
  cases v with
  | bytes b => exact clean_throw _
  | other typeName => exact clean_throw _
  | holder access =>
    refine clean_settleAccess (fun _ => clean_throw _) fun d => ?_
    cases d with
    | none => exact clean_throw _
    | some d =>
      cases d with
      | other typeName => exact clean_throw _
      | dict v =>
        refine clean_bind ?_ fun _ => clean_pure _
        cases v with
        | dlpack t => exact clean_pure t
        | other typeName => exact clean_throw _
        | bytes b =>
          simp only [tensorOf]
          split
          · exact clean_throw _
          · exact clean_pure _

theorem getTensor_clean (frombuffer : Bytes → Except Failure T) (reply : GetReply T) :
    Clean (getTensor repr frombuffer key reply) :=
  clean_wrap _ <| clean_settle (fun _ => clean_unlessMissing _ _ _) fun _ =>
    clean_settle (fun _ => clean_unlessMissing _ _ _) (valueTensor_clean frombuffer)

theorem init_clean (configPath : Option String) (store : Option S) (importLayer : Except Failure Unit)
    (newStore : String → NativeCall S) : Clean (init repr configPath store importLayer newStore) := by
  unfold init
  split
  · exact clean_pure _
  · split
    · exact clean_throw _
    · split
      · exact clean_throw _
      · exact clean_settle (fun _ => clean_throw _) clean_pure

theorem fresh_consumed : Uses.AllConsumed {} := fun _ hi => absurd hi (Nat.not_lt_zero _)

/-- Whatever the native calls come back with, no call of the adapter ends with a
Result that it has not consumed. -/
theorem results_consumed (repr : String → String) (key : String) (frombuffer : Bytes → Except Failure T) :
    (∀ reply : GetReply T, (get repr key reply {}).2.AllConsumed) ∧
    (∀ reply, (put repr key reply {}).2.AllConsumed) ∧
    (∀ reply, (remove repr key reply {}).2.AllConsumed) ∧
    (∀ reply, (putTensor repr key reply {}).2.AllConsumed) ∧
    (∀ reply, (getTensor repr frombuffer key reply {}).2.AllConsumed) ∧
    ∀ configPath (store : Option S) importLayer newStore,
      (init repr configPath store importLayer newStore {}).2.AllConsumed :=
  ⟨fun reply => get_clean reply _ fresh_consumed,
    fun reply => clean_wrap _ (putAs_clean "put" reply) _ fresh_consumed,
    fun reply => remove_clean reply _ fresh_consumed,
    fun reply => clean_wrap _ (putAs_clean "put_tensor" reply) _ fresh_consumed,
    fun reply => getTensor_clean frombuffer reply _ fresh_consumed,
    fun configPath store importLayer newStore =>
      init_clean configPath store importLayer newStore _ fresh_consumed⟩

/-- The key is reported missing, at the call or when its future is waited for. -/
def Missing (reply : GetReply T) : Prop :=
  ∃ e, isKeyNotFound (some e) = true ∧
    (reply = .returns (.err e) ∨ reply = .returns (.ok (some (.returns (.err e)))))

/-- The future resolves to these bytes, as they are or in the field of a holder. -/
def Resolves (reply : GetReply T) (b : Bytes) : Prop :=
  ∃ v, reply = .returns (.ok (some (.returns (.ok (some v))))) ∧
    (v = .bytes b ∨ v = .holder (.returns (.ok (some (.dict (.bytes b))))))

/-- Both the call and its future answer Ok, with either Boolean. -/
def Done (reply : PutReply) : Prop := ∃ done, reply = .returns (.ok (some (.returns (.ok (some done)))))

/-- The call answers Ok, with either Boolean, or that there is no such key. -/
def Removed (reply : RemoveReply) : Prop :=
  (∃ done, reply = .returns (.ok (some done))) ∨ ∃ e, isKeyNotFound (some e) = true ∧ reply = .returns (.err e)

/-- A failure that leaves `op` as a RuntimeError naming the key. -/
def FailedAs (repr : String → String) (op key : String) (exc : Failure) : Prop :=
  exc.errType = "RuntimeError" ∧ ∃ why, exc.err = op ++ " failed key=" ++ repr key ++ ": " ++ why

theorem wrap_ok {context : String} {x : Method α} {u : Uses} {a : α} :
    (Method.wrap context x u).1 = .ok a ↔ (x u).1 = .ok a := by
  unfold Method.wrap
  cases hx : x u with
  | mk r u' => cases r <;> simp

/-- A wrapped failure is a RuntimeError that begins with its context. -/
theorem wrap_error {context : String} {x : Method α} {u : Uses} {exc : Failure}
    (h : (Method.wrap context x u).1 = .error exc) :
    exc.errType = "RuntimeError" ∧ ∃ why, exc.err = context ++ why := by
  unfold Method.wrap at h
  cases hx : x u with
  | mk r u' =>
    rw [hx] at h
    cases r with
    | error e =>
      cases h
      exact ⟨rfl, e.err, rfl⟩
    | ok a => cases h

/-- Only a missing key becomes an answer. -/
theorem unlessMissing_ok {err : Option Failure} {missing a : β} {exc : Failure} {u : Uses} :
    (unlessMissing err missing exc u).1 = .ok a ↔ isKeyNotFound err = true ∧ a = missing := by
  unfold unlessMissing
  split
  · rename_i h
    simp [h, Method.pure, eq_comm]
  · rename_i h
    simp [h, Method.throw]

@[simp] theorem isKeyNotFound_none : isKeyNotFound none = false := rfl

@[simp] theorem isKeyNotFound_runtimeError (err : String) :
    isKeyNotFound (some ⟨"RuntimeError", err⟩) = false := rfl

theorem payloadBytes_ok {d : Option (MemPayload T)} {b : Bytes} {u : Uses} :
    (payloadBytes repr key d u).1 = .ok b ↔ d = some (.dict (.bytes b)) := by
  cases d with
  | none => simp [payloadBytes, Method.throw]
  | some d =>
    cases d with
    | other typeName => simp [payloadBytes, Method.throw]
    | dict v => cases v <;> simp [payloadBytes, Method.throw, Method.pure]

/-- A value gives bytes when it is bytes, or a holder of a dictionary of them. -/
theorem extractBytes_ok {v : ValueObject T} {b : Bytes} {u : Uses} :
    (extractBytes repr key v u).1 = .ok b ↔
      v = .bytes b ∨ v = .holder (.returns (.ok (some (.dict (.bytes b))))) := by
  cases v with
  | bytes b' => simp [extractBytes, Method.pure]
  | other typeName => simp [extractBytes, Method.throw]
  | holder access =>
    simp only [extractBytes]
    cases access with
    | raises exc => simp [withContext, settleAccess_raises]
    | returnsNone => simp [withContext, settleAccess_returnsNone]
    | returns res =>
      cases res with
      | err e => simp [withContext, settleAccess_err, Method.throw]
      | ok d => simp [withContext, settleAccess_ok, payloadBytes_ok]

theorem bind_some_ok {x : Method β} {u : Uses} {r : Option β} :
    (Method.bind x (fun b => Method.pure (some b)) u).1 = .ok r ↔ ∃ b, (x u).1 = .ok b ∧ r = some b := by
  unfold Method.bind
  cases hx : x u with
  | mk res u' => cases res <;> simp [Method.pure, eq_comm]

/-- When `get` returns: bytes when the future resolves to them, None when the key is missing. -/
theorem get_ok {reply : GetReply T} {u : Uses} {r : Option Bytes} :
    (get repr key reply u).1 = .ok r ↔
      (r = none ∧ Missing reply) ∨ ∃ b, r = some b ∧ Resolves reply b := by
  rw [get, wrap_ok]
  cases reply with
  | raises exc => simp [settle_raises, Missing, Resolves]
  | returnsNone => simp [settle_returnsNone, unlessMissing_ok, Missing, Resolves]
  | returns res =>
    cases res with
    | err e => simp [settle_err, unlessMissing_ok, Missing, Resolves, and_comm]
    | ok fut =>
      cases fut with
      | none => simp [settle_okNone, unlessMissing_ok, Missing, Resolves]
      | some fut =>
        rw [settle_ok]
        cases fut with
        | raises exc => simp [settle_raises, Missing, Resolves]
        | returnsNone => simp [settle_returnsNone, unlessMissing_ok, Missing, Resolves]
        | returns res =>
          cases res with
          | err e => simp [settle_err, unlessMissing_ok, Missing, Resolves, and_comm]
          | ok v =>
            cases v with
            | none => simp [settle_okNone, unlessMissing_ok, Missing, Resolves]
            | some v =>
              simp only [settle_ok, bind_some_ok, extractBytes_ok, Missing, Resolves]
              simp [and_comm]

theorem put_ok {reply : PutReply} {u : Uses} : (put repr key reply u).1 = .ok () ↔ Done reply := by
  rw [put, wrap_ok, putAs]
  cases reply with
  | raises exc => simp [settle_raises, Done]
  | returnsNone => simp [settle_returnsNone, Method.throw, Done]
  | returns res =>
    cases res with
    | err e => simp [settle_err, Method.throw, Done]
    | ok fut =>
      cases fut with
      | none => simp [settle_okNone, Method.throw, Done]
      | some fut =>
        rw [settle_ok]
        cases fut with
        | raises exc => simp [settle_raises, Done]
        | returnsNone => simp [settle_returnsNone, Method.throw, Done]
        | returns res =>
          cases res with
          | err e => simp [settle_err, Method.throw, Done]
          | ok v => cases v <;> simp [settle_okNone, settle_ok, Method.throw, Method.pure, Done]

theorem remove_ok {reply : RemoveReply} {u : Uses} :
    (remove repr key reply u).1 = .ok () ↔ Removed reply := by
  rw [remove, wrap_ok]
  cases reply with
  | raises exc => simp [settle_raises, Removed]
  | returnsNone => simp [settle_returnsNone, unlessMissing_ok, Removed]
  | returns res =>
    cases res with
    | err e => simp [settle_err, unlessMissing_ok, Removed]
    | ok v => cases v <;> simp [settle_okNone, settle_ok, unlessMissing_ok, Method.pure, Removed]

/-- The error policy: a missing key is a miss and no error to remove, and any
other failure, of whatever kind, leaves the adapter as a RuntimeError that names the key. An
Ok of False counts as success. -/
theorem error_policy (repr : String → String) (key : String) (u : Uses) :
    (∀ (reply : GetReply T) r, (get repr key reply u).1 = .ok r ↔
      (r = none ∧ Missing reply) ∨ ∃ b, r = some b ∧ Resolves reply b) ∧
    (∀ (reply : GetReply T) exc, (get repr key reply u).1 = .error exc → FailedAs repr "FluxonKV.get" key exc) ∧
    (∀ reply, (put repr key reply u).1 = .ok () ↔ Done reply) ∧
    (∀ reply exc, (put repr key reply u).1 = .error exc → FailedAs repr "FluxonKV.put" key exc) ∧
    (∀ reply, (remove repr key reply u).1 = .ok () ↔ Removed reply) ∧
    ∀ reply exc, (remove repr key reply u).1 = .error exc → FailedAs repr "FluxonKV.remove" key exc := by
  have named : ∀ {γ : Type} {op : String} {x : Method γ} {exc : Failure},
      (Method.wrap (op ++ " failed key=" ++ repr key ++ ": ") x u).1 = .error exc → FailedAs repr op key exc :=
    fun h => wrap_error h
  exact ⟨fun _ _ => get_ok, fun _ _ h => named h, fun _ => put_ok, fun _ _ h => named h,
    fun _ => remove_ok, fun _ _ h => named h⟩

end FluxonKVStore

end CacheSeek.Stores
