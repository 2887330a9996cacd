import CacheSeek.Lib.Json

namespace CacheSeek.Lib.Json

theorem hexVal_digit : ∀ k : Fin 16, hexVal (Nat.digitChar k) = some k.val := by decide

theorem hexVal_hexDigit (n : Nat) : hexVal (hexDigit n) = some (n % 16) :=
  hexVal_digit ⟨n % 16, Nat.mod_lt n (by omega)⟩

theorem readHex4_hex4 (n : Nat) (hn : n < 65536) (rest : List Char) :
    readHex4 (hex4 n ++ rest) = some (n, rest) := by
  simp only [hex4, List.cons_append, List.nil_append, readHex4, hexVal_hexDigit,
    Option.bind_eq_bind, Option.bind_some, Option.some.injEq, Prod.mk.injEq, and_true]
  omega

theorem char_not_surrogate (c : Char) : ¬ (55296 ≤ c.toNat ∧ c.toNat < 57344) := by
  have h := c.valid
  simp only [UInt32.isValidChar, Nat.isValidChar] at h
  change ¬ (55296 ≤ c.val.toNat ∧ c.val.toNat < 57344)
  omega

theorem char_lt (c : Char) : c.toNat < 1114112 := by
  have h := c.valid
  simp only [UInt32.isValidChar, Nat.isValidChar] at h
  change c.val.toNat < 1114112
  omega

theorem readUnicode_hex4 (c : Char) (hc : c.toNat < 65536) (rest : List Char) :
    readUnicode (hex4 c.toNat ++ rest) = some (c, rest) := by
  have hs := char_not_surrogate c
  have h1 : ¬ (55296 ≤ c.toNat ∧ c.toNat < 56320) := by omega
  have h2 : ¬ (56320 ≤ c.toNat ∧ c.toNat < 57344) := by omega
  unfold readUnicode
  rw [readHex4_hex4 c.toNat hc rest]
  simp only [Option.bind_eq_bind, Option.bind_some]
  rw [if_neg h1, if_neg h2, Char.ofNat_toNat]

/-- A character of the basic plane survives its escape. -/
theorem readChar_escapeUnicode (c : Char) (hc : c.toNat < 65536) (rest : List Char) :
    readChar (escapeUnicode c.toNat ++ rest) = some (c, rest) := by
  simp only [escapeUnicode, List.cons_append, readChar]
  exact readUnicode_hex4 c hc rest

/-- A character outside the basic plane is written as two surrogates. -/
theorem readUnicode_pair {u v : Nat} (hu : 55296 ≤ u ∧ u < 56320) (hv : 56320 ≤ v ∧ v < 57344)
    (rest : List Char) : readUnicode (hex4 u ++ escapeUnicode v ++ rest) =
      some (Char.ofNat (65536 + (u - 55296) * 1024 + (v - 56320)), rest) := by
  unfold readUnicode
  rw [List.append_assoc, readHex4_hex4 u (by omega)]
  simp only [Option.bind_eq_bind, Option.bind_some, escapeUnicode, List.cons_append]
  rw [if_pos hu, readHex4_hex4 v (by omega)]
  simp only [Option.bind_some]
  rw [if_pos hv]

/-- A character outside it survives as a surrogate pair. -/
theorem readChar_surrogates (c : Char) (hc : 65536 ≤ c.toNat) (rest : List Char) :
    readChar (escapeUnicode (55296 + (c.toNat - 65536) / 1024) ++
      escapeUnicode (56320 + (c.toNat - 65536) % 1024) ++ rest) = some (c, rest) := by
  have hl := char_lt c
  generalize hu : 55296 + (c.toNat - 65536) / 1024 = u
  generalize hv : 56320 + (c.toNat - 65536) % 1024 = v
  have h := readUnicode_pair (u := u) (v := v) (by omega) (by omega) rest
  have e : 65536 + (u - 55296) * 1024 + (v - 56320) = c.toNat := by omega
  rw [e, Char.ofNat_toNat] at h
  simpa only [escapeUnicode, List.cons_append, readChar] using h

theorem readChar_plain {c : Char} (hq : c ≠ '\\') (hc : 32 ≤ c.toNat) (rest : List Char) :
    readChar (c :: rest) = some (c, rest) := by
  have h : ¬ (c.toNat < 32 ∨ c = '\\') := by
    rintro (h | h)
    · omega
    · exact hq h
  unfold readChar
  split <;> simp_all

/-- The reader undoes the escape of every character. -/
theorem readChar_escapeChar (ascii : Bool) (c : Char) (rest : List Char) :
    readChar (escapeChar ascii c ++ rest) = some (c, rest) := by
  unfold escapeChar
  by_cases hquote : c = '"'
  · subst c
    rfl
  rw [if_neg hquote]
  by_cases hslash : c = '\\'
  · subst c
    rfl
  rw [if_neg hslash]
  by_cases hnl : c = '\n'
  · subst c
    rfl
  rw [if_neg hnl]
  by_cases hcr : c = '\r'
  · subst c
    rfl
  rw [if_neg hcr]
  by_cases htab : c = '\t'
  · subst c
    rfl
  rw [if_neg htab]
  by_cases hb : c.toNat = 8
  · rw [if_pos hb, ← Char.ofNat_toNat c, hb]
    rfl
  rw [if_neg hb]
  by_cases hf : c.toNat = 12
  · rw [if_pos hf, ← Char.ofNat_toNat c, hf]
    rfl
  rw [if_neg hf]
  by_cases hctl : c.toNat < 32
  · rw [if_pos hctl]
    exact readChar_escapeUnicode c (by omega) rest
  rw [if_neg hctl]
  split
  · split
    · rename_i h
      exact readChar_escapeUnicode c h rest
    · exact readChar_surrogates c (by omega) rest
  · exact readChar_plain hslash (by omega) rest

/-- No escaped character begins with a quote, so the string ends where it ends. -/
theorem escapeChar_head (ascii : Bool) (c : Char) :
    ∃ d ds, escapeChar ascii c = d :: ds ∧ d ≠ '"' := by
  have hescape : ∀ l : List Char, ∃ d ds, '\\' :: l = d :: ds ∧ d ≠ '"' := fun l =>
    ⟨'\\', l, rfl, by decide⟩
  have hbranch : ∀ (p : Prop) [Decidable p] (l l' : List Char), (∃ d ds, l = d :: ds ∧ d ≠ '"') →
      (¬ p → ∃ d ds, l' = d :: ds ∧ d ≠ '"') → ∃ d ds, (if p then l else l') = d :: ds ∧ d ≠ '"' := by
    intro p _ l l' hl hl'
    split
    · exact hl
    · exact hl' ‹¬ p›
  unfold escapeChar escapeUnicode
  refine hbranch _ _ _ (hescape _) fun hquote => ?_
  repeat refine hbranch _ _ _ (hescape _) fun _ => ?_
  refine hbranch _ _ _ ?_ fun _ => ⟨c, [], rfl, hquote⟩
  exact hbranch _ _ _ (hescape _) fun _ => hescape _

/-- The reader undoes the printing of every string. -/
theorem readString_dump (ascii : Bool) (cs : List Char) (n : Nat) (hn : cs.length < n)
    (rest : List Char) :
    readString n (cs.flatMap (escapeChar ascii) ++ '"' :: rest) = some (cs, rest) := by
  induction cs generalizing n with
  | nil =>
    cases n with
    | zero => simp at hn
    | succ n => rfl
  | cons c cs ih =>
    cases n with
    | zero => simp at hn
    | succ n =>
      have hn' : cs.length < n := by simpa using hn
      obtain ⟨d, ds, he, hd⟩ := escapeChar_head ascii c
      have hr := readChar_escapeChar ascii c (cs.flatMap (escapeChar ascii) ++ '"' :: rest)
      simp only [List.flatMap_cons, List.append_assoc]
      rw [he] at hr ⊢
      simp only [List.cons_append] at hr ⊢
      rw [readString]
      · simp only [hr, Option.bind_eq_bind, Option.bind_some, ih n hn']
      · intro r hc
        exact hd (List.cons.inj hc).1

theorem escapeChar_length (ascii : Bool) (c : Char) : 1 ≤ (escapeChar ascii c).length := by
  obtain ⟨d, ds, he, _⟩ := escapeChar_head ascii c
  simp [he]

theorem dumpString_length (ascii : Bool) (s : String) :
    s.toList.length + 2 ≤ (dumpString ascii s).length := by
  have h : ∀ cs : List Char, cs.length ≤ (cs.flatMap (escapeChar ascii)).length := by
    intro cs
    induction cs with
    | nil => simp
    | cons c cs ih =>
      have := escapeChar_length ascii c
      simp only [List.flatMap_cons, List.length_append, List.length_cons]
      omega
  have := h s.toList
  simp only [dumpString, List.length_cons, List.length_append, List.length_nil]
  omega

def Stops (rest : List Char) : Prop := ∀ c, rest.head? = some c → isNumberChar c = false

theorem stops_nil : Stops [] := by
  intro c h
  cases h

theorem stops_cons {c : Char} {rest : List Char} (h : isNumberChar c = false) :
    Stops (c :: rest) := by
  intro d hd
  cases hd
  exact h

/-- A number ends where the text no longer looks like one. -/
theorem takeWhile_token {tok rest : List Char} (ht : ∀ c ∈ tok, isNumberChar c = true)
    (hr : Stops rest) : (tok ++ rest).takeWhile isNumberChar = tok ∧
      (tok ++ rest).dropWhile isNumberChar = rest := by
  rw [List.takeWhile_append_of_pos ht, List.dropWhile_append_of_pos ht]
  cases rest with
  | nil => simp
  | cons c rest => simp [hr c rfl]

theorem toDigits_digit {n : Nat} {c : Char} (hc : c ∈ Nat.toDigits 10 n) : c.isDigit = true :=
  Nat.isDigit_of_mem_toDigits (by decide) (by decide) hc

theorem dumpInt_chars {i : Int} {c : Char} (hc : c ∈ dumpInt i) : c.isDigit = true ∨ c = '-' := by
  cases i with
  | ofNat n => exact Or.inl (toDigits_digit hc)
  | negSucc n =>
    rcases List.mem_cons.mp hc with h | h
    · exact Or.inr h
    · exact Or.inl (toDigits_digit h)

theorem dumpInt_number {i : Int} {c : Char} (hc : c ∈ dumpInt i) : isNumberChar c = true := by
  rcases dumpInt_chars hc with h | h <;> simp [isNumberChar, h]

/-- An integer has neither a point nor an exponent. -/
theorem dumpInt_not_float (i : Int) : isFloatRepr (dumpInt i) = false := by
  have h : ∀ cs : List Char, (∀ c ∈ cs, c.isDigit = true ∨ c = '-') →
      cs.any (fun c => c = '.' || c = 'e') = false := by
    intro cs hcs
    rw [List.any_eq_false]
    intro c hc
    rcases hcs c hc with h | h
    · have h1 : c ≠ '.' := by rintro rfl; simp at h
      have h2 : c ≠ 'e' := by rintro rfl; simp at h
      simp [h1, h2]
    · subst c
      decide
  unfold isFloatRepr
  split
  · simp [h _ fun c hc => dumpInt_chars (List.mem_of_mem_tail hc)]
  · simp [h _ fun c hc => dumpInt_chars hc]

theorem toDigits_head (n : Nat) : (Nat.toDigits 10 n).head? ≠ some '-' := by
  intro h
  have := toDigits_digit (List.mem_of_mem_head? h)
  simp at this

theorem readNumber_dumpInt (i : Int) {rest : List Char} (hr : Stops rest) :
    readNumber (dumpInt i ++ rest) = some (.int i, rest) := by
  obtain ⟨h1, h2⟩ := takeWhile_token (fun c hc => dumpInt_number (i := i) hc) hr
  unfold readNumber
  simp only [h1, h2, dumpInt_not_float, Bool.false_eq_true, ↓reduceDIte]
  cases i with
  | ofNat n =>
    simp only [dumpInt, toDigits_head, if_false, Nat.ofDigitChars_ten_toDigits]
    simp
  | negSucc n =>
    simp only [dumpInt, List.head?_cons, if_true, List.tail_cons, Nat.ofDigitChars_ten_toDigits]
    have e : -((n + 1 : Nat) : Int) = Int.negSucc n := rfl
    rw [e, if_pos rfl]

theorem readNumber_float (x : FloatRepr) {rest : List Char} (hr : Stops rest) :
    readNumber (x.text ++ rest) = some (.float x, rest) := by
  have ht : ∀ c ∈ x.text, isNumberChar c = true := by
    intro c hc
    have hv := x.valid
    unfold isFloatRepr at hv
    split at hv
    · rename_i hh
      simp only [Bool.and_eq_true, List.all_eq_true] at hv
      cases hx : x.text with
      | nil => simp [hx] at hc
      | cons d ds =>
        rw [hx] at hc hh hv
        rcases List.mem_cons.mp hc with h | h
        · simp only [List.head?_cons, Option.some.injEq] at hh
          simp [isNumberChar, h, hh]
        · simpa [isNumberChar] using hv.2 c h
    · simp only [Bool.and_eq_true, List.all_eq_true] at hv
      simpa [isNumberChar] using hv.2 c hc
  obtain ⟨h1, h2⟩ := takeWhile_token ht hr
  unfold readNumber
  simp only [h1, h2, x.valid, ↓reduceDIte]

def Opens (c : Char) : Prop := isSpace c = false ∧ c ≠ ']' ∧ c ≠ '}'

def NumberHead (c : Char) : Prop := c.isDigit = true ∨ c = '-'

theorem NumberHead.opens {c : Char} (h : NumberHead c) : Opens c := by
  rcases h with h | h
  · refine ⟨?_, ?_, ?_⟩
    · simp only [isSpace, Bool.or_eq_false_iff, decide_eq_false_iff_not]
      refine ⟨⟨⟨?_, ?_⟩, ?_⟩, ?_⟩ <;> (rintro rfl; simp at h)
    · rintro rfl
      simp at h
    · rintro rfl
      simp at h
  · subst c
    exact ⟨by decide, by decide, by decide⟩

theorem dumpInt_head (i : Int) : ∃ c cs, dumpInt i = c :: cs ∧ NumberHead c := by
  cases hd : dumpInt i with
  | nil =>
    cases i with
    | ofNat n => exact False.elim (Nat.toDigits_ne_nil hd)
    | negSucc n => simp [dumpInt] at hd
  | cons c cs => exact ⟨c, cs, rfl, dumpInt_chars (i := i) (by simp [hd])⟩

theorem float_head (x : FloatRepr) : ∃ c cs, x.text = c :: cs ∧ NumberHead c := by
  have hv := x.valid
  cases hx : x.text with
  | nil => simp [hx, isFloatRepr] at hv
  | cons c cs =>
    refine ⟨c, cs, rfl, ?_⟩
    by_cases hc : c = '-'
    · exact Or.inr hc
    · simp only [isFloatRepr, hx, List.head?_cons, Option.some.injEq, hc, if_false,
        Bool.and_eq_true, Option.any_some] at hv
      exact Or.inl hv.1.1

/-- No value begins with white space or a closing bracket. -/
theorem dump_head (st : JsonStyle) (j : Json) : ∃ c cs, dump st j = c :: cs ∧ Opens c := by
  cases j with
  | null => exact ⟨'n', _, rfl, by decide, by decide, by decide⟩
  | bool b =>
    cases b
    · exact ⟨'f', _, rfl, by decide, by decide, by decide⟩
    · exact ⟨'t', _, rfl, by decide, by decide, by decide⟩
  | int i =>
    obtain ⟨c, cs, h, hc⟩ := dumpInt_head i
    exact ⟨c, cs, by simpa [dump] using h, hc.opens⟩
  | float x =>
    obtain ⟨c, cs, h, hc⟩ := float_head x
    exact ⟨c, cs, by simpa [dump] using h, hc.opens⟩
  | str s => exact ⟨'"', _, rfl, by decide, by decide, by decide⟩
  | arr xs => exact ⟨'[', _, rfl, by decide, by decide, by decide⟩
  | obj kvs => exact ⟨'{', _, rfl, by decide, by decide, by decide⟩

theorem dumpItems_head (st : JsonStyle) (x : Json) (xs : List Json) :
    ∃ c cs, dumpItems st (x :: xs) = c :: cs ∧ Opens c := by
  obtain ⟨c, cs, h, hc⟩ := dump_head st x
  cases xs with
  | nil => exact ⟨c, cs, by simpa [dumpItems] using h, hc⟩
  | cons y ys => exact ⟨c, _, by simp only [dumpItems, h, List.cons_append]; rfl, hc⟩

theorem dumpMembers_head (st : JsonStyle) (key : String) (x : Json) (kvs : List (String × Json)) :
    ∃ cs, dumpMembers st ((key, x) :: kvs) = '"' :: cs := by
  cases kvs with
  | nil => exact ⟨_, by simp only [dumpMembers, dumpString, List.cons_append]; rfl⟩
  | cons y ys => exact ⟨_, by simp only [dumpMembers, dumpString, List.cons_append]; rfl⟩

theorem skipSpace_opens {c : Char} (hc : Opens c) (cs : List Char) :
    skipSpace (c :: cs) = c :: cs := by
  simp [skipSpace, hc.1]

/-- A separator's blanks are skipped. -/
theorem skipSpace_pad (n : Nat) {c : Char} (hc : Opens c) (cs : List Char) :
    skipSpace (List.replicate n ' ' ++ c :: cs) = c :: cs := by
  induction n with
  | zero => exact skipSpace_opens hc cs
  | succ n ih =>
    simp only [List.replicate_succ, List.cons_append, skipSpace] at ih ⊢
    rw [List.dropWhile_cons_of_pos (by decide)]
    exact ih

/-- A number's first character is none that the other values open with. -/
theorem read_number (n k : Nat) {c : Char} (hc : NumberHead c) (cs : List Char) :
    read (n + 1) (List.replicate k ' ' ++ c :: cs) = readNumber (c :: cs) := by
  rw [read, skipSpace_pad k hc.opens]
  have hne : ∀ d : Char, d.isDigit = false → d ≠ '-' → c ≠ d := by
    rintro d h1 h2 rfl
    rcases hc with h | h
    · rw [h1] at h
      cases h
    · exact h2 h
  split <;> rename_i he
  all_goals first
    | rfl
    | exact False.elim (hne _ (by decide) (by decide) (List.cons.inj he).1)

theorem ofList_string (s : String) : String.ofList s.toList = s := String.ofList_toList

variable (st : JsonStyle)

theorem read_string (s : String) (n k : Nat) (rest : List Char)
    (hn : 2 * (dumpString st.ascii s).length ≤ n) :
    read n (List.replicate k ' ' ++ (dumpString st.ascii s ++ rest)) = some (.str s, rest) := by
  have hl := dumpString_length st.ascii s
  cases n with
  | zero => omega
  | succ n =>
    simp only [dumpString, List.cons_append, List.append_assoc, List.nil_append]
    rw [read, skipSpace_pad k ⟨by decide, by decide, by decide⟩]
    simp only [readString_dump st.ascii s.toList n (by omega) rest, Option.map_some, ofList_string]

mutual

/-- Reading a printed value gives the value back and leaves what follows it. -/
theorem read_dump (j : Json) (n k : Nat) (rest : List Char) (hr : Stops rest)
    (hn : 2 * (dump st j).length ≤ n) :
    read n (List.replicate k ' ' ++ (dump st j ++ rest)) = some (j, rest) := by
  match j, n with
  | .null, n + 1 | .bool true, n + 1 | .bool false, n + 1 =>
    simp only [dump, List.cons_append, List.nil_append]
    rw [read, skipSpace_pad k ⟨by decide, by decide, by decide⟩]
    rfl
  | .int i, n + 1 =>
    obtain ⟨c, cs, h, hc⟩ := dumpInt_head i
    have hnum := readNumber_dumpInt i hr
    simp only [dump]
    rw [h] at hnum ⊢
    rw [← hnum]
    exact read_number n k hc _
  | .float x, n + 1 =>
    obtain ⟨c, cs, h, hc⟩ := float_head x
    have hnum := readNumber_float x hr
    simp only [dump]
    rw [h] at hnum ⊢
    rw [← hnum]
    exact read_number n k hc _
  | .str s, n => exact read_string st s n k rest hn
  | .arr [], n + 1 =>
    simp only [dump, dumpItems, List.cons_append, List.nil_append]
    rw [read, skipSpace_pad k ⟨by decide, by decide, by decide⟩]
    rfl
  | .arr (x :: xs), n + 1 =>
    have hlen : 2 * (dumpItems st (x :: xs)).length + 1 ≤ n := by
      simp only [dump, List.length_cons, List.length_append, List.length_nil] at hn
      omega
    have hitems := readItems_dump x xs n 0 rest hlen
    obtain ⟨c, cs, h, hc⟩ := dumpItems_head st x xs
    simp only [List.replicate_zero, List.nil_append] at hitems
    simp only [dump, List.cons_append, List.append_assoc, List.nil_append]
    rw [read, skipSpace_pad k ⟨by decide, by decide, by decide⟩]
    rw [h] at hitems ⊢
    simp only [List.cons_append, skipSpace_opens hc] at hitems ⊢
    split
    · rename_i he
      exact False.elim (hc.2.1 (List.cons.inj he).1)
    · rw [hitems]
      rfl
  | .obj [], n + 1 =>
    simp only [dump, dumpMembers, List.cons_append, List.nil_append]
    rw [read, skipSpace_pad k ⟨by decide, by decide, by decide⟩]
    rfl
  | .obj ((key, x) :: kvs), n + 1 =>
    have hlen : 2 * (dumpMembers st ((key, x) :: kvs)).length + 1 ≤ n := by
      simp only [dump, List.length_cons, List.length_append, List.length_nil] at hn
      omega
    have hmem := readMembers_dump key x kvs n 0 rest hlen
    obtain ⟨cs, h⟩ := dumpMembers_head st key x kvs
    simp only [List.replicate_zero, List.nil_append] at hmem
    simp only [dump, List.cons_append, List.append_assoc, List.nil_append]
    rw [read, skipSpace_pad k ⟨by decide, by decide, by decide⟩]
    rw [h] at hmem ⊢
    have hq : Opens '"' := ⟨by decide, by decide, by decide⟩
    simp only [List.cons_append, skipSpace_opens hq] at hmem ⊢
    split
    · rename_i he
      exact absurd (List.cons.inj he).1 (by decide)
    · rw [hmem]
      rfl
  | .null, 0 | .bool true, 0 | .bool false, 0 | .arr _, 0 | .obj _, 0 =>
    simp [dump] at hn
  | .int i, 0 =>
    obtain ⟨c, cs, h, _⟩ := dumpInt_head i
    simp [dump, h] at hn
  | .float x, 0 =>
    obtain ⟨c, cs, h, _⟩ := float_head x
    simp [dump, h] at hn

/-- The fuel is twice the length of what is left to read. -/
theorem readItems_dump (x : Json) (xs : List Json) (n k : Nat) (rest : List Char)
    (hn : 2 * (dumpItems st (x :: xs)).length + 1 ≤ n) :
    readItems n (List.replicate k ' ' ++ (dumpItems st (x :: xs) ++ ']' :: rest)) =
      some (x :: xs, rest) := by
  match xs, n with
  | [], n + 1 =>
    simp only [dumpItems] at hn ⊢
    rw [readItems, read_dump x n k (']' :: rest) (stops_cons (by decide)) (by omega)]
    rfl
  | y :: ys, n + 1 =>
    simp only [dumpItems, List.length_append] at hn
    simp only [dumpItems, List.append_assoc, JsonStyle.itemSep, List.cons_append]
    simp only [JsonStyle.itemSep, List.length_cons] at hn
    rw [readItems, read_dump x n k _ (stops_cons (by decide)) (by omega)]
    simp only [Option.bind_eq_bind, Option.bind_some]
    rw [show skipSpace (',' :: (List.replicate st.pad ' ' ++
      (dumpItems st (y :: ys) ++ ']' :: rest))) = _ from
      skipSpace_opens ⟨by decide, by decide, by decide⟩ _]
    simp only [readItems_dump y ys n st.pad rest (by omega), Option.bind_some]
  | _, 0 => omega

theorem readMembers_dump (key : String) (x : Json) (kvs : List (String × Json)) (n k : Nat)
    (rest : List Char) (hn : 2 * (dumpMembers st ((key, x) :: kvs)).length + 1 ≤ n) :
    readMembers n (List.replicate k ' ' ++ (dumpMembers st ((key, x) :: kvs) ++ '}' :: rest)) =
      some ((key, x) :: kvs, rest) := by
  have hkey := dumpString_length st.ascii key
  have hq : Opens '"' := ⟨by decide, by decide, by decide⟩
  have hcomma : Opens ',' := ⟨by decide, by decide, by decide⟩
  have hcolon : Opens ':' := ⟨by decide, by decide, by decide⟩
  match kvs, n with
  | [], n + 1 =>
    simp only [dumpMembers, List.length_append, JsonStyle.keySep, List.length_cons] at hn
    simp only [dumpMembers, dumpString, JsonStyle.keySep, List.append_assoc, List.cons_append,
      List.nil_append]
    rw [readMembers, skipSpace_pad k hq]
    simp only [readString_dump st.ascii key.toList n (by omega), Option.bind_eq_bind,
      Option.bind_some, skipSpace_opens hcolon,
      read_dump x n st.pad ('}' :: rest) (stops_cons (by decide)) (by omega)]
    simp only [skipSpace, List.dropWhile_cons_of_neg (show ¬ isSpace '}' = true by decide),
      ofList_string]
  | (key', y) :: ys, n + 1 =>
    simp only [dumpMembers, List.length_append, JsonStyle.keySep, JsonStyle.itemSep,
      List.length_cons] at hn
    simp only [dumpMembers, JsonStyle.keySep, JsonStyle.itemSep, List.append_assoc,
      List.cons_append]
    rw [show dumpString st.ascii key = '"' :: (key.toList.flatMap (escapeChar st.ascii) ++ ['"'])
      from rfl]
    simp only [List.append_assoc, List.cons_append, List.nil_append]
    rw [readMembers, skipSpace_pad k hq]
    simp only [readString_dump st.ascii key.toList n (by omega), Option.bind_eq_bind,
      Option.bind_some, skipSpace_opens hcolon,
      read_dump x n st.pad _ (stops_cons (show isNumberChar ',' = false by decide)) (by omega),
      skipSpace_opens hcomma, readMembers_dump key' y ys n st.pad rest (by omega), ofList_string]
  | _, 0 => omega
end

/-- `json.loads` gives back whatever `json.dumps` was given. -/
theorem loads_dumps (j : Json) : loads (dumps st j) = some j := by
  have h := read_dump st j (2 * (dump st j).length + 2) 0 [] stops_nil (by omega)
  simp only [List.replicate_zero, List.nil_append, List.append_nil] at h
  simp only [loads, dumps, String.toList_ofList, h, Option.bind_eq_bind, Option.bind_some]
  exact if_pos rfl

/-- Different values print differently. -/
theorem dumps_injective : Function.Injective (dumps st) := by
  intro i j h
  have := congrArg loads h
  simpa [loads_dumps] using this

end CacheSeek.Lib.Json
