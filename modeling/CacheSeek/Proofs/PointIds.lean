import CacheSeek.Backends.Qdrant
import CacheSeek.Proofs.KeyIdentity

namespace CacheSeek.Proofs.PointIds
open CacheSeek.Lib CacheSeek.Prefix CacheSeek.Backends CacheSeek.Proofs.KeyIdentity

/-- A digit as `hex()` and `str(uuid)` write it. -/
def IsDigit (c : Char) : Prop := ∃ k : Fin 16, c = Nat.digitChar k

theorem digit_plain : ∀ k : Fin 16, Nat.digitChar k ≠ '-' ∧ Nat.digitChar k ≠ 'u' ∧ Nat.digitChar k ≠ '{' ∧
    Nat.digitChar k ≠ '}' ∧ Nat.digitChar k ≠ '+' ∧ Nat.digitChar k ≠ 'x' ∧ Nat.digitChar k ≠ 'X' ∧
    Nat.digitChar k ≠ '_' ∧ isSpaceByte (Nat.digitChar k) = false ∧ (Nat.digitChar k).toNat < 127 := by decide

variable {decimal : Char → Option (Fin 10)}

theorem isDigit_hexDigit (n : Nat) : IsDigit (Json.hexDigit n) := ⟨⟨n % 16, Nat.mod_lt n (by omega)⟩, rfl⟩

theorem hexDigits_isDigit (n k : Nat) : ∀ c ∈ hexDigits n k, IsDigit c := by
  induction k generalizing n with
  | zero => simp [hexDigits]
  | succ k ih =>
    intro c hc
    rcases List.mem_append.mp hc with hc | hc
    · exact ih _ c hc
    · rw [List.mem_singleton.mp hc]
      exact isDigit_hexDigit n

theorem hexDigits_length (n k : Nat) : (hexDigits n k).length = k := by
  induction k generalizing n with
  | zero => rfl
  | succ k ih => simp [hexDigits, ih]

theorem hex_isDigit (b : Bytes) : ∀ c ∈ (hex b).toList, IsDigit c := by
  intro c hc
  rw [hex, String.toList_ofList, List.mem_flatMap] at hc
  obtain ⟨x, -, hx⟩ := hc
  rcases List.mem_cons.mp hx with rfl | hx
  · exact isDigit_hexDigit _
  · rw [List.mem_singleton.mp hx]
    exact isDigit_hexDigit _

theorem hex_length (b : Bytes) : (hex b).toList.length = 2 * b.length := by
  rw [hex, String.toList_ofList]
  induction b with
  | nil => rfl
  | cons x b ih => simp [hexByte, ih]; omega

theorem readHexTail_cons (acc : Nat) (d : Fin 16) (s : List Char) :
    readHexTail acc (Nat.digitChar d :: s) = readHexTail (16 * acc + d) s := by
  have hne := (digit_plain d).2.2.2.2.2.2.2.1
  rw [readHexTail.eq_def]
  split
  · rename_i h
    cases h
  · rename_i h
    exact absurd (List.cons.inj h).1 hne
  · rename_i h
    obtain ⟨rfl, rfl⟩ := List.cons.inj h
    rw [Json.hexVal_digit]
    rfl

theorem readHexTail_snoc {s : List Char} (hs : ∀ c ∈ s, IsDigit c) (acc : Nat) (k : Fin 16) :
    readHexTail acc (s ++ [Nat.digitChar k]) = (readHexTail acc s).map fun n => 16 * n + k.val := by
  induction s generalizing acc with
  | nil =>
    rw [List.nil_append, readHexTail_cons]
    rfl
  | cons c s ih =>
    obtain ⟨d, rfl⟩ := hs c (by simp)
    rw [List.cons_append, readHexTail_cons, readHexTail_cons, ih fun c hc => hs c (by simp [hc])]

/-- Digits are read as a number that has these digits. -/
theorem readHexTail_digits (s : List Char) (hs : ∀ c ∈ s, IsDigit c) :
    ∃ n, readHexTail 0 s = some n ∧ hexDigits n s.length = s := by
  induction s using List.reverseRecOn with
  | nil => exact ⟨0, rfl, rfl⟩
  | append_singleton s c ih =>
    obtain ⟨k, rfl⟩ := hs c (by simp)
    have hs' : ∀ c ∈ s, IsDigit c := fun c hc => hs c (by simp [hc])
    obtain ⟨n, hn, hdigits⟩ := ih hs'
    have hk := k.isLt
    refine ⟨16 * n + k.val, by rw [readHexTail_snoc hs', hn]; rfl, ?_⟩
    rw [List.length_append, List.length_singleton, hexDigits]
    have hdiv : (16 * n + k.val) / 16 = n := by omega
    have hmod : (16 * n + k.val) % 16 = k.val := by omega
    rw [hdiv, hdigits, Json.hexDigit, hmod]

theorem stripChars_none {p : Char → Bool} {s : List Char} (h : ∀ c ∈ s, p c = false) : stripChars p s = s := by
  have hdrop : ∀ l : List Char, (∀ c ∈ l, p c = false) → l.dropWhile p = l := by
    intro l hl
    cases l with
    | nil => rfl
    | cons c l => rw [List.dropWhile_cons, hl c (by simp)]; rfl
  unfold stripChars
  rw [hdrop s h, hdrop _ fun c hc => h c (List.mem_reverse.mp hc), List.reverse_reverse]

theorem dropAll_none {u : Char} {sub s : List Char} (h : u ∉ s) : dropAll (u :: sub) 0 s = s := by
  induction s with
  | nil => rfl
  | cons c s ih =>
    have hc : ¬ (u :: sub) <+: c :: s := by
      rintro ⟨t, ht⟩
      exact h (by rw [← (List.cons.inj ht).1]; simp)
    rw [dropAll, if_neg hc, ih fun hs => h (by simp [hs])]

/-- Digits without a prefix are all there is to `int(s, 16)`. -/
theorem readHex_digits {s : List Char} (hs : ∀ c ∈ s, IsDigit c) (hne : s ≠ []) :
    readHex decimal s = readHexTail 0 s := by
  have hspace : ∀ c ∈ s, isSpaceByte c = false := by
    intro c hc
    obtain ⟨k, rfl⟩ := hs c hc
    exact (digit_plain k).2.2.2.2.2.2.2.2.1
  have hascii : s.map (asciiChar decimal) = s := by
    conv_rhs => rw [← List.map_id s]
    refine List.map_congr_left fun c hc => ?_
    obtain ⟨k, rfl⟩ := hs c hc
    exact if_pos (digit_plain k).2.2.2.2.2.2.2.2.2
  have hplus : s.head? ≠ some '+' := by
    intro h
    obtain ⟨k, hk⟩ := hs '+' (List.mem_of_mem_head? h)
    exact (digit_plain k).2.2.2.2.1 hk.symm
  have hprefix : ¬ (s.head? = some '0' ∧ (s[1]? = some 'x' ∨ s[1]? = some 'X')) := by
    rintro ⟨-, h | h⟩
    · obtain ⟨k, hk⟩ := hs 'x' (List.mem_of_getElem? h)
      exact (digit_plain k).2.2.2.2.2.1 hk.symm
    · obtain ⟨k, hk⟩ := hs 'X' (List.mem_of_getElem? h)
      exact (digit_plain k).2.2.2.2.2.2.1 hk.symm
  simp only [readHex, hascii, stripChars_none hspace, hplus, hprefix, ↓reduceIte]
  cases s with
  | nil => exact absurd rfl hne
  | cons c s =>
    obtain ⟨k, rfl⟩ := hs c (by simp)
    rw [readHexTail_cons]
    dsimp only
    rw [Json.hexVal_digit]
    simp

/-- Text that is 32 digits, apart from hyphens, is a UUID with these digits. -/
theorem uuidInt_digits {s : List Char} (hs : ∀ c ∈ s, c = '-' ∨ IsDigit c)
    (hlen : (s.filter (· ≠ '-')).length = 32) :
    ∃ n, uuidInt decimal s = some n ∧ hexDigits n 32 = s.filter (· ≠ '-') := by
  have hdigit : ∀ c ∈ s.filter (· ≠ '-'), IsDigit c := by
    intro c hc
    obtain ⟨hc, hne⟩ := List.mem_filter.mp hc
    exact (hs c hc).resolve_left (by simpa using hne)
  have hno : ∀ c : Char, c ≠ '-' → (∀ k : Fin 16, Nat.digitChar k ≠ c) → c ∉ s := by
    intro c hc hk hm
    rcases hs c hm with h | ⟨k, h⟩
    · exact hc h
    · exact hk k h.symm
  have hu : 'u' ∉ s := hno 'u' (by decide) fun k => (digit_plain k).2.1
  have hbrace : ∀ c ∈ s, (c = '{' || c = '}') = false := by
    intro c hc
    rw [Bool.or_eq_false_iff, decide_eq_false_iff_not, decide_eq_false_iff_not]
    constructor
    · rintro rfl
      exact hno '{' (by decide) (fun k => (digit_plain k).2.2.1) hc
    · rintro rfl
      exact hno '}' (by decide) (fun k => (digit_plain k).2.2.2.1) hc
  obtain ⟨n, hn, hd⟩ := readHexTail_digits _ hdigit
  refine ⟨n, ?_, by rw [← hlen]; exact hd⟩
  have hne : s.filter (· ≠ '-') ≠ [] := by
    intro h
    rw [h] at hlen
    cases hlen
  unfold uuidInt
  rw [show "urn:".toList = 'u' :: "rn:".toList from rfl, show "uuid:".toList = 'u' :: "uid:".toList from rfl,
    dropAll_none hu, dropAll_none hu, stripChars_none hbrace]
  simp only [hlen, ↓reduceIte]
  rw [readHex_digits hdigit hne, hn]

theorem uuidText_toList (n : Nat) : (uuidText n).toList =
    (hexDigits n 32).take 8 ++ '-' :: ((hexDigits n 32).drop 8).take 4 ++
      '-' :: ((hexDigits n 32).drop 12).take 4 ++ '-' :: ((hexDigits n 32).drop 16).take 4 ++
      '-' :: (hexDigits n 32).drop 20 := String.toList_ofList

theorem uuidText_chars (n : Nat) : ∀ c ∈ (uuidText n).toList, c = '-' ∨ IsDigit c := by
  have hall := hexDigits_isDigit n 32
  intro c hc
  rw [uuidText_toList] at hc
  simp only [List.mem_append, List.mem_cons] at hc
  rcases hc with (((hc | rfl | hc) | rfl | hc) | rfl | hc) | rfl | hc
  · exact .inr (hall c (List.mem_of_mem_take hc))
  · exact .inl rfl
  · exact .inr (hall c (List.mem_of_mem_drop (List.mem_of_mem_take hc)))
  · exact .inl rfl
  · exact .inr (hall c (List.mem_of_mem_drop (List.mem_of_mem_take hc)))
  · exact .inl rfl
  · exact .inr (hall c (List.mem_of_mem_drop (List.mem_of_mem_take hc)))
  · exact .inl rfl
  · exact .inr (hall c (List.mem_of_mem_drop hc))

/-- The hyphens are all that is added. -/
theorem uuidText_digits (n : Nat) : (uuidText n).toList.filter (· ≠ '-') = hexDigits n 32 := by
  rw [uuidText_toList]
  have hall : ∀ c ∈ hexDigits n 32, c ≠ '-' := by
    intro c hc
    obtain ⟨k, rfl⟩ := hexDigits_isDigit n 32 c hc
    exact (digit_plain k).1
  generalize hexDigits n 32 = d at hall
  have hkeep : ∀ l : List Char, (∀ c ∈ l, c ∈ d) → l.filter (· ≠ '-') = l := by
    intro l hl
    exact List.filter_eq_self.mpr fun c hc => by simpa using hall c (hl c hc)
  have hsplit : ∀ i j : Nat, (d.drop i).take j ++ d.drop (i + j) = d.drop i := by
    intro i j
    rw [← List.drop_drop, List.take_append_drop]
  simp only [List.filter_append, List.filter_cons, ne_eq, not_true_eq_false, decide_false, Bool.false_eq_true,
    ↓reduceIte]
  rw [hkeep _ fun c => List.mem_of_mem_take, hkeep _ fun c hc => List.mem_of_mem_drop (List.mem_of_mem_take hc),
    hkeep _ fun c hc => List.mem_of_mem_drop (List.mem_of_mem_take hc),
    hkeep _ fun c hc => List.mem_of_mem_drop (List.mem_of_mem_take hc), hkeep _ fun c => List.mem_of_mem_drop]
  rw [List.append_assoc, hsplit 16 4, List.append_assoc, hsplit 12 4, List.append_assoc, hsplit 8 4,
    List.take_append_drop]

theorem uuidText_of_digits {n m : Nat} (h : hexDigits n 32 = hexDigits m 32) : uuidText n = uuidText m := by
  unfold uuidText
  rw [h]

theorem digits_of_uuidText {n m : Nat} (h : uuidText n = uuidText m) : hexDigits n 32 = hexDigits m 32 := by
  rw [← uuidText_digits n, h, uuidText_digits]

theorem toPointId_uuid (sha256 : Bytes → Bytes) (cacheId : String) :
    ∃ n, toPointId decimal sha256 cacheId = uuidText n := by
  unfold toPointId
  split
  · exact ⟨_, rfl⟩
  · exact ⟨_, rfl⟩

/-- A point id stands for itself, and the hexadecimal ids that caches are given
are told apart as points. -/
theorem point_ids (decimal : Char → Option (Fin 10)) (sha256 : Bytes → Bytes) :
    (∀ cacheId, toPointId decimal sha256 (toPointId decimal sha256 cacheId) = toPointId decimal sha256 cacheId) ∧
    ∀ k k' : Bytes, k.length = 16 → k'.length = 16 →
      toPointId decimal sha256 (hex k) = toPointId decimal sha256 (hex k') → k = k' := by
  constructor
  · intro cacheId
    obtain ⟨n, hn⟩ := @toPointId_uuid decimal sha256 cacheId
    rw [hn]
    obtain ⟨m, hm, hd⟩ := @uuidInt_digits decimal _ (uuidText_chars n) (by rw [uuidText_digits, hexDigits_length])
    rw [uuidText_digits] at hd
    simp only [toPointId, hm]
    exact uuidText_of_digits hd
  · have hnumber : ∀ k : Bytes, k.length = 16 →
        ∃ n, toPointId decimal sha256 (hex k) = uuidText n ∧ hexDigits n 32 = (hex k).toList := by
      intro k hk
      have hfilter : (hex k).toList.filter (· ≠ '-') = (hex k).toList := by
        refine List.filter_eq_self.mpr fun c hc => ?_
        obtain ⟨d, rfl⟩ := hex_isDigit k c hc
        simp
      obtain ⟨n, hn, hd⟩ := @uuidInt_digits decimal _ (fun c hc => .inr (hex_isDigit k c hc))
        (by rw [hfilter, hex_length, hk])
      rw [hfilter] at hd
      exact ⟨n, by simp only [toPointId, hn], hd⟩
    intro k k' hk hk' h
    obtain ⟨n, hn, hd⟩ := hnumber k hk
    obtain ⟨n', hn', hd'⟩ := hnumber k' hk'
    rw [hn, hn'] at h
    have hdigits := digits_of_uuidText h
    rw [hd, hd'] at hdigits
    exact hex_injective (String.toList_injective hdigits)

end CacheSeek.Proofs.PointIds
