import CacheSeek.Lib.JsonText

namespace CacheSeek.Lib.Json

theorem readHex4_extend {cs rest : List Char} {v : Nat} (u : List Char) (h : readHex4 cs = some (v, rest)) :
    readHex4 (cs ++ u) = some (v, rest ++ u) := by
  unfold readHex4 at h
  split at h
  · rename_i a b c d tail
    simp only [Option.bind_eq_bind, Option.bind_eq_some_iff, Option.some.injEq, Prod.mk.injEq] at h
    obtain ⟨a', ha, b', hb, c', hc, d', hd, hv, hrest⟩ := h
    simp only [List.cons_append, readHex4, ha, hb, hc, hd, Option.bind_eq_bind, Option.bind_some, hv, hrest]
  · cases h

theorem readUnicode_extend {cs rest : List Char} {c : Char} (u : List Char) (h : readUnicode cs = some (c, rest)) :
    readUnicode (cs ++ u) = some (c, rest ++ u) := by
  unfold readUnicode at h ⊢
  simp only [Option.bind_eq_bind, Option.bind_eq_some_iff] at h ⊢
  obtain ⟨⟨v, tail⟩, hv, h⟩ := h
  refine ⟨(v, tail ++ u), readHex4_extend u hv, ?_⟩
  dsimp only at h ⊢
  split
  · rename_i hhigh
    rw [if_pos hhigh] at h
    split at h
    · rename_i low
      simp only [Option.bind_eq_some_iff, List.cons_append] at h ⊢
      obtain ⟨⟨w, tail'⟩, hw, h⟩ := h
      refine ⟨(w, tail' ++ u), readHex4_extend u hw, ?_⟩
      dsimp only at h ⊢
      split
      · rename_i hlow
        rw [if_pos hlow, Option.some.injEq, Prod.mk.injEq] at h
        rw [h.1, h.2]
      · rename_i hlow
        rw [if_neg hlow] at h
        cases h
    · cases h
  · rename_i hhigh
    rw [if_neg hhigh] at h
    split
    · rename_i hlow
      rw [if_pos hlow] at h
      cases h
    · rename_i hlow
      rw [if_neg hlow, Option.some.injEq, Prod.mk.injEq] at h
      rw [h.1, h.2]

theorem readChar_extend {cs rest : List Char} {c : Char} (u : List Char) (h : readChar cs = some (c, rest)) :
    readChar (cs ++ u) = some (c, rest ++ u) := by
  unfold readChar at h
  split at h
  · exact readUnicode_extend u h
  case h_10 d tail _ _ _ _ _ _ _ _ _ =>
    split at h
    · cases h
    · rename_i hplain
      cases h
      apply readChar_plain
      · exact fun he => hplain (Or.inr he)
      · exact Nat.le_of_not_lt fun hlt => hplain (Or.inl hlt)
  case h_11 => cases h
  all_goals
    cases h
    rfl

theorem readString_extend {n : Nat} {cs rest s : List Char} (u : List Char) (h : readString n cs = some (s, rest)) :
    ∀ k, n ≤ k → readString k (cs ++ u) = some (s, rest ++ u) := by
  induction n generalizing cs s with
  | zero => cases h
  | succ n ih =>
    intro k hk
    cases k with
    | zero => omega
    | succ k =>
      unfold readString at h
      split at h
      · cases h
      · rename_i tail _ he
        cases he
        cases h
        rfl
      · rename_i cs _ _ _ hn hquote
        cases hn
        simp only [Option.bind_eq_bind, Option.bind_eq_some_iff, Option.some.injEq, Prod.mk.injEq] at h
        obtain ⟨⟨c, tail⟩, hc, ⟨s', rest'⟩, hs, rfl, rfl⟩ := h
        have hchar := readChar_extend u hc
        have hstring := ih hs k (Nat.le_of_succ_le_succ hk)
        rw [readString]
        · simp only [hchar, hstring, Option.bind_eq_bind, Option.bind_some]
        · intro r hr
          cases cs with
          | nil =>
            unfold readChar at hc
            cases hc
          | cons d ds =>
            rw [List.cons_append, List.cons.injEq] at hr
            obtain ⟨rfl, _⟩ := hr
            exact hquote _ rfl

theorem skipSpace_extend {cs ds : List Char} (u : List Char) (h : skipSpace cs = ds) (hne : ds ≠ []) :
    skipSpace (cs ++ u) = ds ++ u := by
  induction cs with
  | nil => exact absurd h.symm hne
  | cons c cs ih =>
    by_cases hc : isSpace c = true
    · rw [skipSpace, List.dropWhile_cons_of_pos hc] at h
      rw [skipSpace, List.cons_append, List.dropWhile_cons_of_pos hc]
      exact ih h
    · rw [skipSpace, List.dropWhile_cons_of_neg hc] at h
      rw [skipSpace, List.cons_append, List.dropWhile_cons_of_neg hc, ← h, List.cons_append]

/-- What is read as a number is the print of that number, as far as number characters go. -/
theorem readNumber_cases {cs rest : List Char} {j : Json} (h : readNumber cs = some (j, rest)) :
    rest = cs.dropWhile isNumberChar ∧
      ((∃ x : FloatRepr, j = .float x ∧ cs = x.text ++ rest) ∨ ∃ i, j = .int i ∧ cs = dumpInt i ++ rest) := by
  have hsplit := (List.takeWhile_append_dropWhile (p := isNumberChar) (l := cs)).symm
  unfold readNumber at h
  dsimp only at h
  generalize (if (cs.takeWhile isNumberChar).head? = some '-' then
    (cs.takeWhile isNumberChar).tail else cs.takeWhile isNumberChar) = digits at h
  generalize (if (cs.takeWhile isNumberChar).head? = some '-' then
    -(Nat.ofDigitChars 10 digits 0 : Int) else (Nat.ofDigitChars 10 digits 0 : Int)) = i at h
  split at h
  · rename_i hfloat
    rw [Option.some.injEq, Prod.mk.injEq] at h
    obtain ⟨rfl, rfl⟩ := h
    exact ⟨rfl, Or.inl ⟨_, rfl, hsplit⟩⟩
  · split at h
    · rename_i hint
      rw [Option.some.injEq, Prod.mk.injEq] at h
      obtain ⟨rfl, rfl⟩ := h
      refine ⟨rfl, Or.inr ⟨i, rfl, ?_⟩⟩
      rw [hint]
      exact hsplit
    · cases h

/-- A number ends where the text goes on with something else. -/
theorem readNumber_extend {cs rest : List Char} {j : Json} (u : List Char) (h : readNumber cs = some (j, rest))
    (hne : rest ≠ []) : readNumber (cs ++ u) = some (j, rest ++ u) := by
  obtain ⟨hrest, hcases⟩ := readNumber_cases h
  have hstops : Stops (rest ++ u) := by
    cases rest with
    | nil => exact absurd rfl hne
    | cons c tail =>
      apply stops_cons
      have hhead := List.head?_dropWhile_not isNumberChar cs
      rw [← hrest, List.head?_cons] at hhead
      simpa using hhead
  rcases hcases with ⟨x, rfl, hcs⟩ | ⟨i, rfl, hcs⟩
  · rw [hcs, List.append_assoc]
    exact readNumber_float x hstops
  · rw [hcs, List.append_assoc]
    exact readNumber_dumpInt i hstops

theorem readNumber_head {cs rest : List Char} {j : Json} (h : readNumber cs = some (j, rest)) :
    ∃ c tail, cs = c :: tail ∧ NumberHead c := by
  rcases (readNumber_cases h).2 with ⟨x, -, hcs⟩ | ⟨i, -, hcs⟩
  · obtain ⟨c, tail, hx, hc⟩ := float_head x
    exact ⟨c, tail ++ rest, by rw [hcs, hx, List.cons_append], hc⟩
  · obtain ⟨c, tail, hi, hc⟩ := dumpInt_head i
    exact ⟨c, tail ++ rest, by rw [hcs, hi, List.cons_append], hc⟩

def Closed : Json → List Char → Prop
  | .int _, rest => rest ≠ []
  | .float _, rest => rest ≠ []
  | _, _ => True

/-- What `n` units of fuel read is read with more of them, and more text behind. -/
structure Extends (n : Nat) : Prop where
  value : ∀ {cs rest j}, read n cs = some (j, rest) → Closed j rest → ∀ (u : List Char) (k : Nat), n ≤ k →
    read k (cs ++ u) = some (j, rest ++ u)
  items : ∀ {cs rest xs}, readItems n cs = some (xs, rest) → ∀ (u : List Char) (k : Nat), n ≤ k →
    readItems k (cs ++ u) = some (xs, rest ++ u)
  members : ∀ {cs rest kvs}, readMembers n cs = some (kvs, rest) → ∀ (u : List Char) (k : Nat), n ≤ k →
    readMembers k (cs ++ u) = some (kvs, rest ++ u)

theorem closed_of_ne {j : Json} {rest : List Char} (h : rest ≠ []) : Closed j rest := by
  cases j <;> first | exact h | trivial

theorem read_nil (n : Nat) : read n [] = none := by
  cases n with
  | zero => rfl
  | succ n => rfl

theorem readItems_nil (n : Nat) : readItems n [] = none := by
  cases n with
  | zero => rfl
  | succ n => rw [readItems, read_nil]; rfl

theorem readMembers_nil (n : Nat) : readMembers n [] = none := by
  cases n with
  | zero => rfl
  | succ n => rfl

section
variable {n : Nat} (ih : Extends n) {cs rest : List Char} (u : List Char) {k : Nat} (hk : n ≤ k)
include ih hk

theorem value_extend {j : Json} (h : read (n + 1) cs = some (j, rest)) (hclosed : Closed j rest) :
    read (k + 1) (cs ++ u) = some (j, rest ++ u) := by
  unfold read at h
  split at h
  · rename_i tail hs
    cases h
    rw [read, skipSpace_extend u hs (List.cons_ne_nil _ _)]
    rfl
  · rename_i tail hs
    cases h
    rw [read, skipSpace_extend u hs (List.cons_ne_nil _ _)]
    rfl
  · rename_i tail hs
    cases h
    rw [read, skipSpace_extend u hs (List.cons_ne_nil _ _)]
    rfl
  · rename_i tail hs
    obtain ⟨⟨s, tail'⟩, hstr, hj⟩ := Option.map_eq_some_iff.mp h
    cases hj
    rw [read, skipSpace_extend u hs (List.cons_ne_nil _ _)]
    simp only [List.cons_append, readString_extend u hstr k hk, Option.map_some]
  · rename_i tail hs
    rw [read, skipSpace_extend u hs (List.cons_ne_nil _ _)]
    simp only [List.cons_append]
    split at h
    · rename_i tail' hs'
      cases h
      rw [skipSpace_extend u hs' (List.cons_ne_nil _ _)]
      rfl
    · rename_i hne
      obtain ⟨⟨xs, tail'⟩, hitems, hj⟩ := Option.map_eq_some_iff.mp h
      cases hj
      cases hs' : skipSpace tail with
      | nil =>
        rw [hs', readItems_nil] at hitems
        cases hitems
      | cons c tail'' =>
        rw [hs'] at hitems hne
        have hext := ih.items hitems u k hk
        rw [skipSpace_extend u hs' (List.cons_ne_nil _ _)]
        rw [List.cons_append] at hext ⊢
        split
        · rename_i heq
          exact absurd (congrArg (fun l => l.head?) heq) fun hc => hne tail'' (by simpa using hc)
        · simp only [hext, Option.map_some]
  · rename_i tail hs
    rw [read, skipSpace_extend u hs (List.cons_ne_nil _ _)]
    simp only [List.cons_append]
    split at h
    · rename_i tail' hs'
      cases h
      rw [skipSpace_extend u hs' (List.cons_ne_nil _ _)]
      rfl
    · rename_i hne
      obtain ⟨⟨kvs, tail'⟩, hmembers, hj⟩ := Option.map_eq_some_iff.mp h
      cases hj
      cases hs' : skipSpace tail with
      | nil =>
        rw [hs', readMembers_nil] at hmembers
        cases hmembers
      | cons c tail'' =>
        rw [hs'] at hmembers hne
        have hext := ih.members hmembers u k hk
        rw [skipSpace_extend u hs' (List.cons_ne_nil _ _)]
        rw [List.cons_append] at hext ⊢
        split
        · rename_i heq
          exact absurd (congrArg (fun l => l.head?) heq) fun hc => hne tail'' (by simpa using hc)
        · simp only [hext, Option.map_some]
  · rename_i hn1 hn2 hn3 hn4 hn5 hn6
    obtain ⟨c, tail, hs, hc⟩ := readNumber_head h
    have hne : rest ≠ [] := by
      rcases (readNumber_cases h).2 with ⟨x, rfl, -⟩ | ⟨i, rfl, -⟩
      · exact hclosed
      · exact hclosed
    have hread := read_number k 0 hc (tail ++ u)
    rw [List.replicate_zero, List.nil_append] at hread
    have hskip := skipSpace_extend u hs (List.cons_ne_nil _ _)
    have hsame : read (k + 1) (cs ++ u) = read (k + 1) (c :: (tail ++ u)) := by
      rw [read, read, hskip, skipSpace_opens hc.opens, List.cons_append]
    rw [hsame, hread, ← List.cons_append, ← hs]
    exact readNumber_extend u h hne

theorem items_extend {xs : List Json} (h : readItems (n + 1) cs = some (xs, rest)) :
    readItems (k + 1) (cs ++ u) = some (xs, rest ++ u) := by
  rw [readItems] at h
  simp only [Option.bind_eq_bind, Option.bind_eq_some_iff] at h
  obtain ⟨⟨x, tail⟩, hx, h⟩ := h
  have hne : tail ≠ [] := by
    intro he
    subst he
    cases h
  have hvalue := ih.value hx (closed_of_ne hne) u k hk
  rw [readItems]
  simp only [hvalue, Option.bind_eq_bind, Option.bind_some]
  dsimp only at h
  split at h
  · rename_i tail' hs
    cases h
    rw [skipSpace_extend u hs (List.cons_ne_nil _ _)]
    rfl
  · rename_i tail' hs
    simp only [Option.bind_eq_some_iff] at h
    obtain ⟨⟨xs', tail''⟩, hxs, h⟩ := h
    cases h
    rw [skipSpace_extend u hs (List.cons_ne_nil _ _)]
    simp only [List.cons_append, ih.items hxs u k hk, Option.bind_some]
  · cases h

theorem members_extend {kvs : List (String × Json)} (h : readMembers (n + 1) cs = some (kvs, rest)) :
    readMembers (k + 1) (cs ++ u) = some (kvs, rest ++ u) := by
  rw [readMembers] at h
  split at h
  · rename_i tail hs
    rw [readMembers, skipSpace_extend u hs (List.cons_ne_nil _ _)]
    simp only [Option.bind_eq_bind, Option.bind_eq_some_iff] at h
    obtain ⟨⟨key, tail'⟩, hkey, h⟩ := h
    simp only [List.cons_append, readString_extend u hkey k hk, Option.bind_eq_bind, Option.bind_some]
    dsimp only at h
    split at h
    · rename_i tail'' hs'
      simp only [Option.bind_eq_some_iff] at h
      obtain ⟨⟨x, rest'⟩, hx, h⟩ := h
      have hne : rest' ≠ [] := by
        intro he
        subst he
        cases h
      rw [skipSpace_extend u hs' (List.cons_ne_nil _ _)]
      simp only [List.cons_append, ih.value hx (closed_of_ne hne) u k hk, Option.bind_some]
      dsimp only at h
      split at h
      · rename_i end' hs''
        cases h
        rw [skipSpace_extend u hs'' (List.cons_ne_nil _ _)]
        rfl
      · rename_i more hs''
        simp only [Option.bind_eq_some_iff] at h
        obtain ⟨⟨kvs', end'⟩, hkvs, h⟩ := h
        cases h
        rw [skipSpace_extend u hs'' (List.cons_ne_nil _ _)]
        simp only [List.cons_append, ih.members hkvs u k hk, Option.bind_some]
      · cases h
    · cases h
  · cases h

end

theorem read_extends (n : Nat) : Extends n := by
  induction n with
  | zero =>
    constructor
    · intro cs rest j h
      rw [read] at h
      cases h
    · intro cs rest xs h
      rw [readItems] at h
      cases h
    · intro cs rest kvs h
      rw [readMembers] at h
      cases h
  | succ n ih =>
    have hfuel : ∀ {k : Nat}, n + 1 ≤ k → ∃ i, k = i + 1 ∧ n ≤ i := fun {k} hk => ⟨k - 1, by omega, by omega⟩
    constructor
    · intro cs rest j h hclosed u k hk
      obtain ⟨i, rfl, hi⟩ := hfuel hk
      exact value_extend ih u hi h hclosed
    · intro cs rest xs h u k hk
      obtain ⟨i, rfl, hi⟩ := hfuel hk
      exact items_extend ih u hi h
    · intro cs rest kvs h u k hk
      obtain ⟨i, rfl, hi⟩ := hfuel hk
      exact members_extend ih u hi h

def Bracketed : Json → Prop
  | .arr _ => True
  | .obj _ => True
  | _ => False

theorem dump_bracket (st : JsonStyle) {j : Json} (h : Bracketed j) :
    ∃ c cs, dump st j = c :: cs ∧ (c = '[' ∨ c = '{') := by
  cases j with
  | arr xs => exact ⟨'[', _, rfl, Or.inl rfl⟩
  | obj kvs => exact ⟨'{', _, rfl, Or.inr rfl⟩
  | _ => exact absurd h (by simp [Bracketed])

/-- What opens with a bracket is no number. -/
theorem read_bracket {n : Nat} {c : Char} {cs rest : List Char} {j : Json} (hc : c = '[' ∨ c = '{')
    (h : read n (c :: cs) = some (j, rest)) : Closed j rest := by
  cases n with
  | zero => cases h
  | succ n =>
    have hskip : skipSpace (c :: cs) = c :: cs := by
      apply skipSpace_opens
      rcases hc with rfl | rfl <;> exact ⟨by decide, by decide, by decide⟩
    rw [read, hskip] at h
    split at h
    iterate 3
      · cases h
        trivial
    · obtain ⟨⟨s, tail⟩, -, hj⟩ := Option.map_eq_some_iff.mp h
      cases hj
      trivial
    iterate 2
      · split at h
        · cases h
          trivial
        · obtain ⟨⟨xs, tail⟩, -, hj⟩ := Option.map_eq_some_iff.mp h
          cases hj
          trivial
    · obtain ⟨d, tail, hd, hnum⟩ := readNumber_head h
      rw [List.cons.injEq] at hd
      rw [← hd.1] at hnum
      rcases hc with rfl | rfl <;> rcases hnum with hnum | hnum <;> exact absurd hnum (by decide)

/-- No first part of a printed array or object is a value. -/
theorem loads_take (st : JsonStyle) {j : Json} (hj : Bracketed j) {k : Nat} (hk : k < (dump st j).length) :
    loads (String.ofList ((dump st j).take k)) = none := by
  cases k with
  | zero =>
    rw [List.take_zero]
    rfl
  | succ k =>
    obtain ⟨c, cs, hd, hc⟩ := dump_bracket st hj
    cases hl : loads (String.ofList ((dump st j).take (k + 1))) with
    | none => rfl
    | some i =>
      simp only [loads, String.toList_ofList, Option.bind_eq_bind, Option.bind_eq_some_iff] at hl
      obtain ⟨⟨i', rest⟩, hread, hrest⟩ := hl
      generalize 2 * ((dump st j).take (k + 1)).length + 2 = n at hread
      have hclosed : Closed i' rest := by
        rw [hd, List.take_succ_cons] at hread
        exact read_bracket hc hread
      -- with the part that was cut off, the same value would be read and that part left over
      have hlong := (read_extends n).value hread hclosed ((dump st j).drop (k + 1))
        (n + 2 * (dump st j).length) (Nat.le_add_right _ _)
      have hfull := read_dump st j (n + 2 * (dump st j).length) 0 [] stops_nil (by omega)
      rw [List.take_append_drop] at hlong
      rw [List.replicate_zero, List.nil_append, List.append_nil, hlong, Option.some.injEq, Prod.mk.injEq] at hfull
      have hnil := (List.append_eq_nil_iff.mp hfull.2).2
      rw [List.drop_eq_nil_iff] at hnil
      omega

end CacheSeek.Lib.Json
