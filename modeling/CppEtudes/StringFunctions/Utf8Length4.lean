import CppEtudes.StringFunctions.Utf8Length

/-!
# `utf8_length4`

The loop over a word shifts it by the position it has reached, on top of
the shifts before: from the third look on (from the second, where the
first character does not start with the word) it sees a byte behind the
one it means. That does no harm while the rest of the word is ASCII
(`countWord_ascii`), and `WordwiseAscii` says so for a whole text. The
loop over the last word shifts by a position that is never reduced, so a
text that does not end with a word has no length unless it lies inside
one, and then it has length zero.
-/

namespace CppEtudes

namespace StringFunctions

open Machine

variable {cs : List (List Byte)} {mem : ℕ → Byte} {data : ℕ}

/-! ## Words -/

/-- What a look at a word sees: the complement of its lowest byte. -/
theorem ofLittleEndian_xor (bs : List Byte) :
    (ofLittleEndian bs ^^^ 0xff) % 256 = (~~~(bs.headD 0)).toNat := by
  have hnot : ∀ b : Byte, b.toNat ^^^ 0xff = (~~~b).toNat := forall_byte (by decide +kernel)
  have hmod := Nat.xor_mod_two_pow (a := ofLittleEndian bs) (b := 0xff) (n := 8)
  norm_num at hmod
  rw [hmod, ofLittleEndian_mod, hnot]

/-- **One round**: the byte `k` places on is looked at, and a character of
the length it announces is counted. -/
theorem countWord_succ {bs : List Byte} {k c len : ℕ} (hk : k < 8)
    (hc : clzSize (~~~((bs.drop k).headD 0)).toNat = some c) (hlen : len + 1 < 2147483648)
    (fuel : ℕ) :
    countWord (fuel + 1) (ofLittleEndian bs) k len =
      if k + c < 8 then countWord fuel (ofLittleEndian (bs.drop k)) (k + c) (len + 1)
      else some (k + c, len + 1) := by
  have hshift : (k % 8) <<< 3 = 8 * k := by
    rw [Nat.mod_eq_of_lt hk, Nat.shiftLeft_eq]
    omega
  rw [countWord, hshift, shiftRight64, if_pos (by omega), ofLittleEndian_shiftRight,
    Nat.mod_eq_of_lt hk]
  simp only [Option.bind_eq_bind, Option.bind_some, ofLittleEndian_xor, hc, intAdd, if_pos hlen]

theorem clzSize_ascii {b : Byte} (h : IsAscii b) : clzSize (~~~b).toNat = some 1 :=
  announces_clzSize b 1 (by unfold IsAscii at h; simp only [IsLeadByte]; omega)

/-- **Over ASCII, and over the zeros shifted in, every round counts one
byte**, wherever it looks. -/
theorem countWord_ascii (fuel : ℕ) : ∀ {bs : List Byte} {k len : ℕ}, k < 8 → 8 ≤ k + fuel →
    (∀ b ∈ bs.drop k, IsAscii b) → len + (8 - k) < 2147483648 →
    countWord fuel (ofLittleEndian bs) k len = some (8, len + (8 - k)) := by
  induction fuel with
  | zero => intro bs k len hk hfuel _ _; omega
  | succ fuel ih =>
    intro bs k len hk hfuel hascii hlen
    have hhead : IsAscii ((bs.drop k).headD 0) := by
      cases hdrop : bs.drop k with
      | nil => decide
      | cons b rest => exact hascii b (by simp [hdrop])
    rw [countWord_succ hk (clzSize_ascii hhead) (by omega)]
    split_ifs with hlt
    · rw [ih hlt (by omega) ?_ (by omega)]
      · congr 2
        omega
      · intro b hb
        exact hascii b (List.mem_of_mem_drop hb)
    · congr 2 <;> omega

/-! ## Texts that are counted right -/

/-- How many characters that start in a word are looked at where they
start: two if the first starts with the word, else one. -/
def looksRight (k : ℕ) : ℕ := if k = 0 then 2 else 1

/-- **In every word, all characters but the first `looksRight` have one
byte.** `k` is where in its word the next character starts, `free` how
many may still be longer. -/
def WordwiseAscii : ℕ → ℕ → List (List Byte) → Prop
  | _, _, [] => True
  | k, free, c :: cs =>
    (c.length = 1 ∨ 0 < free) ∧
      if k + c.length < 8 then WordwiseAscii (k + c.length) (free - 1) cs
      else WordwiseAscii (k + c.length - 8) (looksRight (k + c.length - 8)) cs

theorem isAscii_of_length_one {b : Byte} (h : IsUtf8Char [b]) : IsAscii b := by
  have hlead : b.toNat ≤ 0x7F := h.1
  unfold IsAscii
  omega

theorem IsUtf8Char.length_le {c : List Byte} (h : IsUtf8Char c) : 1 ≤ c.length ∧ c.length ≤ 4 := by
  obtain ⟨b, t, -, hlead, -⟩ := h.exists_lead
  match hn : c.length, hlead with
  | 1, _ | 2, _ | 3, _ | 4, _ => omega

/-- With none free, the rest of the word is one-byte characters. -/
theorem WordwiseAscii.rest (cs : List (List Byte)) : ∀ {k : ℕ}, (∀ c ∈ cs, IsUtf8Char c) → k < 8 →
    8 ≤ k + cs.flatten.length → WordwiseAscii k 0 cs →
    (∀ b ∈ cs.flatten.take (8 - k), IsAscii b) ∧ 8 - k ≤ cs.length ∧
      (cs.take (8 - k)).flatten.length = 8 - k ∧ WordwiseAscii 0 2 (cs.drop (8 - k)) := by
  induction cs with
  | nil => intro k _ hk hlen _; simp at hlen; omega
  | cons c cs ih =>
    intro k h hk hlen hword
    obtain ⟨hone, hrest⟩ := hword
    obtain ⟨b, rfl⟩ := List.length_eq_one_iff.1 (hone.resolve_right (Nat.lt_irrefl 0))
    have hb := isAscii_of_length_one (h [b] (by simp))
    obtain ⟨m, hm⟩ : ∃ m, 8 - k = m + 1 := ⟨7 - k, by omega⟩
    simp only [List.length_singleton] at hrest
    simp only [List.flatten_cons, List.length_append, List.length_singleton] at hlen
    rw [hm]
    simp only [List.flatten_cons, List.singleton_append, List.take_succ_cons, List.mem_cons,
      List.length_cons, List.drop_succ_cons, forall_eq_or_imp]
    by_cases hlt : k + 1 < 8
    · rw [if_pos hlt] at hrest
      obtain ⟨h₁, h₂, h₃, h₄⟩ := ih (fun c hc => h c (by simp [hc])) hlt (by omega) hrest
      obtain rfl : m = 8 - (k + 1) := by omega
      exact ⟨⟨hb, h₁⟩, by omega, by omega, h₄⟩
    · rw [if_neg hlt, show k + 1 - 8 = 0 by omega] at hrest
      obtain rfl : m = 0 := by omega
      simp only [List.take_zero, List.not_mem_nil, List.flatten_nil, List.length_nil,
        List.drop_zero]
      exact ⟨⟨hb, fun _ hc => hc.elim⟩, by omega, trivial, hrest⟩

/-! ## A word of such a text -/

/-- The loop over a word has counted the `m` characters that start in it
and stands where the last of them ends. -/
def CountsWord (cs : List (List Byte)) (k len : ℕ) (r : Option (ℕ × ℕ)) : Prop :=
  ∃ k' m, r = some (k', len + m) ∧ m ≤ cs.length ∧ 8 ≤ k' ∧ k' < 16 ∧
    k + (cs.take m).flatten.length = k' ∧ WordwiseAscii (k' - 8) (looksRight (k' - 8)) (cs.drop m)

/-- A character counted before the rest of them. -/
theorem CountsWord.cons {c : List Byte} {k len : ℕ} {r : Option (ℕ × ℕ)}
    (h : CountsWord cs (k + c.length) (len + 1) r) : CountsWord (c :: cs) k len r := by
  obtain ⟨k', m, hr, hm, h₁, h₂, hend, hrest⟩ := h
  refine ⟨k', m + 1, by rw [hr]; congr 2; omega, ?_, h₁, h₂, ?_, hrest⟩
  · rw [List.length_cons]
    omega
  · rw [List.take_succ_cons, List.flatten_cons, List.length_append]
    omega

/-- The first look of a word sees the character that starts at `k`. -/
theorem countWord_first {bs c : List Byte} {k len : ℕ} (hc : IsUtf8Char c) (hk : k < 8)
    (hbs : bs.drop k = (c ++ cs.flatten).take (8 - k)) (hlen : len + 1 < 2147483648) (fuel : ℕ) :
    countWord (fuel + 1) (ofLittleEndian bs) k len =
      if k + c.length < 8 then countWord fuel (ofLittleEndian (bs.drop k)) (k + c.length) (len + 1)
      else some (k + c.length, len + 1) := by
  obtain ⟨b, t, hcons, hlead, -⟩ := hc.exists_lead
  refine countWord_succ hk ?_ hlen fuel
  obtain ⟨m, hm⟩ : ∃ m, 8 - k = m + 1 := ⟨7 - k, by omega⟩
  rw [hbs, hcons, hm, List.cons_append, List.take_succ_cons, List.headD_cons, ← hcons]
  exact announces_clzSize b _ hlead

/-- What the word holds behind a character. -/
theorem drop_behind {bs c rest : List Byte} {k : ℕ} (hbs : bs.drop k = (c ++ rest).take (8 - k)) :
    bs.drop (k + c.length) = rest.take (8 - (k + c.length)) := by
  rw [← List.drop_drop, hbs, List.drop_take, List.drop_left, Nat.sub_sub]

/-- From a word not yet shifted one character is looked at right. -/
theorem countsWord_one {bs : List Byte} {k len fuel : ℕ} (h : ∀ c ∈ cs, IsUtf8Char c) (hk : k < 8)
    (hfuel : 8 ≤ k + fuel) (htotal : 8 ≤ k + cs.flatten.length)
    (hbs : bs.drop k = cs.flatten.take (8 - k)) (hword : WordwiseAscii k 1 cs)
    (hlen : len + cs.length < 2147483648) :
    CountsWord cs k len (countWord fuel (ofLittleEndian bs) k len) := by
  obtain ⟨fuel, rfl⟩ : ∃ f, fuel = f + 1 := ⟨fuel - 1, by omega⟩
  cases cs with
  | nil => simp at htotal; omega
  | cons c cs =>
    have hc := h c (by simp)
    have hsize := hc.length_le
    rw [List.flatten_cons] at hbs htotal
    rw [List.length_append] at htotal
    rw [List.length_cons] at hlen
    rw [countWord_first hc hk hbs (by omega)]
    obtain ⟨-, hrest⟩ := hword
    split_ifs with hlt
    · rw [if_pos hlt] at hrest
      obtain ⟨hascii, hle, hend, hnext⟩ :=
        WordwiseAscii.rest cs (fun c hc => h c (by simp [hc])) hlt (by omega) hrest
      refine CountsWord.cons ⟨8, 8 - (k + c.length), ?_, hle, le_rfl, by omega, by omega, hnext⟩
      refine countWord_ascii fuel hlt (by omega) ?_ (by omega)
      intro b hb
      rw [List.drop_drop, Nat.add_comm, ← List.drop_drop, drop_behind hbs] at hb
      exact hascii b (List.mem_of_mem_drop hb)
    · rw [if_neg hlt] at hrest
      exact ⟨k + c.length, 1, rfl, by simp, by omega, by omega, by simp, hrest⟩

/-- **A word is counted right**, whichever position its first character
starts at. -/
theorem countsWord {bs : List Byte} {k : ℕ} (len : ℕ) (h : ∀ c ∈ cs, IsUtf8Char c) (hk : k < 8)
    (htotal : 8 ≤ k + cs.flatten.length) (hbs : bs.drop k = cs.flatten.take (8 - k))
    (hword : WordwiseAscii k (looksRight k) cs) (hlen : len + cs.length < 2147483648) :
    CountsWord cs k len (countWord 8 (ofLittleEndian bs) k len) := by
  rcases Nat.eq_zero_or_pos k with rfl | hpos
  · -- the first look shifts by nothing, so the second is right, too
    cases cs with
    | nil => simp at htotal
    | cons c cs =>
      have hc := h c (by simp)
      have hsize := hc.length_le
      rw [List.flatten_cons] at hbs htotal
      rw [List.length_append] at htotal
      rw [List.length_cons] at hlen
      rw [countWord_first hc hk hbs (by omega), if_pos (by omega), List.drop_zero]
      obtain ⟨-, hrest⟩ := hword
      rw [if_pos (by omega)] at hrest
      exact CountsWord.cons (countsWord_one (fun c hc => h c (by simp [hc])) (by omega) (by omega)
        (by omega) (drop_behind hbs) hrest (by omega))
  · rw [looksRight, if_neg (by omega)] at hword
    exact countsWord_one h hk (by omega) htotal hbs hword hlen

/-! ## The words of a text -/

/-- Memory holds the text from address `data` on. -/
def StoredAt (mem : ℕ → Byte) (data : ℕ) (text : List Byte) : Prop :=
  ∀ i, i < text.length → mem (data + i) = text.getD i 0

theorem StoredAt.drop {text : List Byte} (h : StoredAt mem data text) (k : ℕ) :
    StoredAt mem (data + k) (text.drop k) := by
  intro i hi
  rw [List.length_drop] at hi
  rw [Nat.add_assoc, h (k + i) (by omega)]
  simp [List.getD_eq_getElem?_getD]

/-- The word around the start of the text, from there on. -/
theorem StoredAt.drop_word {text : List Byte} {p k : ℕ} (h : StoredAt mem (p + k) text)
    (htotal : 8 ≤ k + text.length) :
    ((List.range 8).map fun j => mem (p + j)).drop k = text.take (8 - k) := by
  refine List.ext_getElem (by simp; omega) fun i h₁ h₂ => ?_
  simp only [List.length_take] at h₂
  simp only [List.getElem_drop, List.getElem_map, List.getElem_range, List.getElem_take]
  rw [← Nat.add_assoc, h i (by omega), List.getD_eq_getElem _ _ (by omega)]

/-- The loop reduces the position it comes with. -/
theorem countWord_mod (fuel oct k len : ℕ) :
    countWord fuel oct (k % 8) len = countWord fuel oct k len := by
  cases fuel with
  | zero => rfl
  | succ fuel => simp only [countWord, Nat.mod_mod]

/-- **The loop over the words counts every character** of a text that
ends with the last of them. -/
theorem countWords_eq (n : ℕ) : ∀ {cs : List (List Byte)} {k : ℕ} (p k₀ len : ℕ),
    (∀ c ∈ cs, IsUtf8Char c) → k < 8 → k₀ % 8 = k → k + cs.flatten.length = 8 * n →
    StoredAt mem (p + k) cs.flatten → WordwiseAscii k (looksRight k) cs →
    len + cs.length < 2147483648 →
    ∃ k', countWords mem n p k₀ len = some (k', len + cs.length) := by
  induction n with
  | zero =>
    intro cs k p k₀ len h _ _ htotal _ _ _
    have hcount := length_le_length_flatten h
    exact ⟨k₀, by rw [countWords, show cs.length = 0 by omega]; rfl⟩
  | succ n ih =>
    intro cs k p k₀ len h hk hmod htotal hstored hword hlen
    obtain ⟨k', m, hresult, hm, hge, hlt, hend, hrest⟩ := countsWord len h hk (by omega)
      (hstored.drop_word (by omega)) hword hlen
    have hdrop := drop_flatten_take cs m
    have hsplit := congrArg List.length hdrop
    rw [List.length_drop] at hsplit
    have hprefix := length_flatten_take_le cs m
    have hnext := hstored.drop (cs.take m).flatten.length
    rw [hdrop, Nat.add_assoc, hend, show p + k' = p + 8 + (k' - 8) by omega] at hnext
    obtain ⟨k'', hk''⟩ := ih (p + 8) k' (len + m)
      (fun c hc => h c (List.mem_of_mem_drop hc)) (by omega) (by omega) (by omega) hnext hrest
      (by rw [List.length_drop]; omega)
    refine ⟨k'', ?_⟩
    rw [countWords, ← countWord_mod, hmod, loadWord, hresult, Option.bind_eq_bind, Option.bind_some]
    simp only
    rw [hk'', List.length_drop]
    congr 2
    omega

/-- Behind a word the position is not yet reduced. -/
theorem le_of_countWord (fuel : ℕ) : ∀ {oct k len k' len' : ℕ},
    countWord fuel oct k len = some (k', len') → 8 ≤ k' := by
  induction fuel with
  | zero => intro oct k len k' len' h; cases h
  | succ fuel ih =>
    intro oct k len k' len' h
    simp only [countWord, Option.bind_eq_bind, Option.bind_eq_some_iff] at h
    obtain ⟨oct', -, c, -, len'', -, h⟩ := h
    split_ifs at h with hlt
    · exact ih h
    · cases h
      omega

theorem le_of_countWords (n : ℕ) : ∀ {p k len k' len' : ℕ},
    countWords mem (n + 1) p k len = some (k', len') → 8 ≤ k' := by
  induction n with
  | zero =>
    intro p k len k' len' h
    simp only [countWords, Option.bind_eq_bind, Option.bind_eq_some_iff] at h
    obtain ⟨⟨k'', len''⟩, hword, h⟩ := h
    cases h
    exact le_of_countWord 8 hword
  | succ n ih =>
    intro p k len k' len' h
    rw [countWords, Option.bind_eq_bind, Option.bind_eq_some_iff] at h
    obtain ⟨⟨k'', len''⟩, -, h⟩ := h
    exact ih h

/-! ## `utf8_length4` against `utf8_length` -/

/-- Both return a number, and the same. -/
def LengthsAgree (mem : ℕ → Byte) (data : ℕ) (text : List Byte) : Prop :=
  ∃ n, utf8Length4 mem data text.length = some n ∧ utf8Length text = some n

theorem lengthsAgree_of_wordwiseAscii (h : ∀ c ∈ cs, IsUtf8Char c)
    (hstored : StoredAt mem data cs.flatten) (hend : (data + cs.flatten.length) % 8 = 0)
    (hlen : cs.flatten.length < 2147483648)
    (hword : WordwiseAscii (data % 8) (looksRight (data % 8)) cs) :
    LengthsAgree mem data cs.flatten := by
  have hcount := length_le_length_flatten h
  refine ⟨cs.length, ?_, by
    rw [utf8Length, utf8LengthFrom_flatten announces_tableSize h, if_pos hlen]⟩
  obtain ⟨k', hwords⟩ := countWords_eq
    (((data + cs.flatten.length) / 8 * 8 - data / 8 * 8) / 8) (data / 8 * 8) (data % 8) 0 h
    (Nat.mod_lt _ (by omega)) (Nat.mod_mod _ _) (by omega)
    (by rwa [Nat.div_add_mod' data 8]) hword (by omega)
  rw [utf8Length4]
  simp only [hwords, Option.bind_eq_bind, Option.bind_some, hend, true_or, if_true, Nat.zero_add]
  rfl

theorem ends_of_lengthsAgree (h : ∀ c ∈ cs, IsUtf8Char c)
    (hagree : LengthsAgree mem data cs.flatten) :
    cs = [] ∨ ((data + cs.flatten.length) % 8 = 0 ∧ cs.flatten.length < 2147483648) := by
  obtain ⟨n, hfour, hone⟩ := hagree
  rw [utf8Length, utf8LengthFrom_flatten announces_tableSize h] at hone
  split_ifs at hone with hlen
  cases hone
  by_cases hend : (data + cs.flatten.length) % 8 = 0
  · exact Or.inr ⟨hend, hlen⟩
  refine Or.inl (List.length_eq_zero_iff.1 ?_)
  simp only [utf8Length4, Option.bind_eq_bind, Option.bind_eq_some_iff, hend, false_or] at hfour
  obtain ⟨⟨k, len⟩, hwords, hfour⟩ := hfour
  split_ifs at hfour with hinside
  · -- inside one word nothing is counted
    rw [hinside, Nat.sub_self, Nat.zero_div, countWords] at hwords
    cases hwords
    exact (Option.some.inj hfour).symm
  · -- behind whole words the shift is by a word or more
    obtain ⟨m, hm⟩ : ∃ m, ((data + cs.flatten.length) / 8 * 8 - data / 8 * 8) / 8 = m + 1 :=
      ⟨((data + cs.flatten.length) / 8 * 8 - data / 8 * 8) / 8 - 1, by omega⟩
    rw [hm] at hwords
    have hge := le_of_countWords m hwords
    have hshift : ¬ k <<< 3 < 64 := by
      rw [Nat.shiftLeft_eq]
      omega
    rw [countLast, shiftRight64, if_neg hshift] at hfour
    cases hfour

theorem lengthsAgree_nil (mem : ℕ → Byte) (data : ℕ) : LengthsAgree mem data [] := by
  refine ⟨0, ?_, rfl⟩
  simp only [utf8Length4, List.length_nil, Nat.add_zero, Nat.sub_self, Nat.zero_div, countWords,
    Option.bind_eq_bind, Option.bind_some, or_true, if_true]
  rfl

/-- **`utf8_length4` agrees with `utf8_length`** on a text that is empty,
or ends with a word and has one-byte characters in each word behind those
looked at where they start; and it agrees on no text that neither is empty
nor ends with a word. -/
theorem utf8Length4_eq_utf8Length (h : ∀ c ∈ cs, IsUtf8Char c)
    (hstored : StoredAt mem data cs.flatten) :
    (cs = [] ∨ ((data + cs.flatten.length) % 8 = 0 ∧ cs.flatten.length < 2147483648 ∧
        WordwiseAscii (data % 8) (looksRight (data % 8)) cs) →
      LengthsAgree mem data cs.flatten) ∧
    (LengthsAgree mem data cs.flatten →
      cs = [] ∨ ((data + cs.flatten.length) % 8 = 0 ∧ cs.flatten.length < 2147483648)) := by
  refine ⟨?_, ends_of_lengthsAgree h⟩
  rintro (rfl | ⟨hend, hlen, hword⟩)
  · exact lengthsAgree_nil mem data
  · exact lengthsAgree_of_wordwiseAscii h hstored hend hlen hword

/-- Memory that holds the text from address `data` on, and zeros. -/
def memoryWith (data : ℕ) (text : List Byte) : ℕ → Byte :=
  fun p => if data ≤ p then text.getD (p - data) 0 else 0

theorem storedAt_memoryWith (data : ℕ) (text : List Byte) :
    StoredAt (memoryWith data text) data text := by
  intro i _
  rw [memoryWith, if_pos (Nat.le_add_right _ _), Nat.add_sub_cancel_left]

/-- Three bytes into a word: a three-byte character, two ASCII ones, and a
word of two four-byte ones. -/
def thirteenBytes : List (List Byte) :=
  [[0xE4, 0xBD, 0xA0], [0x61], [0x62], [0xF0, 0x9F, 0x98, 0x80], [0xF0, 0x9F, 0x98, 0x80]]

theorem utf8Length4_thirteenBytes :
    LengthsAgree (memoryWith 3 thirteenBytes.flatten) 3 thirteenBytes.flatten :=
  (utf8Length4_eq_utf8Length (by decide) (storedAt_memoryWith _ _)).1
    (Or.inr ⟨by decide, by decide, by simp [WordwiseAscii, thirteenBytes, looksRight]⟩)

/-- **A text inside one word has length zero.** -/
theorem utf8Length4_oneByte :
    utf8Length4 (memoryWith 0 [0x61]) 0 1 = some 0 ∧ utf8Length [0x61] = some 1 := by
  decide

end StringFunctions

end CppEtudes
