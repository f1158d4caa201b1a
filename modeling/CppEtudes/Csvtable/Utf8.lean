import CppEtudes.Csvtable.Model.Csvtable

/-!
# The characters `validate_utf8` sees

A text is accepted if it is a sequence of characters, each a first byte
that announces how many bytes there are and continuation bytes behind it;
`@char_index` holds the places they start at. `utf8_substr` cuts behind
the *first byte* of the last character it takes, so it cuts right where
that character is a single byte: behind a blank, for a padded cell.
-/

namespace CppEtudes

namespace Csvtable

open Calltree (Text)

/-! ## Characters -/

/-- A first byte with as many continuation bytes as it announces. -/
def IsChar (c : Text) : Prop :=
  ∃ b t, c = b :: t ∧ byteSize b = c.length ∧ ∀ x ∈ t, byteSize x = -1

/-- The places where characters start, the first at `i`. -/
def starts : ℕ → List Text → List ℕ
  | _, [] => []
  | i, c :: cs => i :: starts (i + c.length) cs

variable {bytes s t c : Text} {cs : List Text}

theorem IsChar.length_pos (h : IsChar c) : 0 < c.length := by
  obtain ⟨b, t, rfl, -⟩ := h
  exact Nat.succ_pos _

theorem length_le_flatten (hcs : ∀ c ∈ cs, IsChar c) : cs.length ≤ cs.flatten.length := by
  induction cs with
  | nil => simp
  | cons c cs ih =>
    rw [List.forall_mem_cons] at hcs
    have hpos := hcs.1.length_pos
    have hrest := ih hcs.2
    rw [List.flatten_cons, List.length_append, List.length_cons]
    omega

theorem length_starts (i : ℕ) (cs : List Text) : (starts i cs).length = cs.length := by
  induction cs generalizing i with
  | nil => rfl
  | cons c cs ih => rw [starts, List.length_cons, ih, List.length_cons]

theorem getElem?_starts_append (i : ℕ) (cs : List Text) (c : Text) (cs' : List Text) :
    (starts i (cs ++ c :: cs'))[cs.length]? = some (i + cs.flatten.length) := by
  induction cs generalizing i with
  | nil => simp [starts]
  | cons d cs ih =>
    rw [List.cons_append, starts, List.length_cons, List.getElem?_cons_succ, ih,
      List.flatten_cons, List.length_append, Nat.add_assoc]

/-! ## `validate_utf8` -/

/-- A round takes the character that stands at its place. -/
theorem charSizeAt_append (before c after : Text) (hc : IsChar c) :
    charSizeAt (before ++ (c ++ after)) before.length = .ok c.length := by
  obtain ⟨b, t, rfl, hsize, hcont⟩ := hc
  have hstart : sizeAt (before ++ (b :: t ++ after)) before.length = (b :: t).length := by
    simp [sizeAt, hsize]
  have hfind : (List.range' (before.length + 1) ((b :: t).length - 1)).find?
      (fun k => sizeAt (before ++ (b :: t ++ after)) k != -1) = none := by
    rw [List.find?_eq_none]
    intro k hk
    rw [List.length_cons, Nat.add_sub_cancel, List.mem_range'_1] at hk
    obtain ⟨j, rfl⟩ : ∃ j, k = before.length + (j + 1) := ⟨k - before.length - 1, by omega⟩
    have hj : j < t.length := by omega
    simp [sizeAt, List.getElem?_append_right, List.getElem?_append_left, hj, hcont]
  rw [charSizeAt, hstart, if_neg (by simp only [List.length_cons]; omega), Int.toNat_natCast, hfind]

theorem sizeAt_eq_of_lt {k : ℕ} (h : k < bytes.length) : sizeAt bytes k = byteSize bytes[k] := by
  simp [sizeAt, h]

/-- Behind the end there is no continuation. -/
theorem lt_of_sizeAt_eq {k : ℕ} (h : sizeAt bytes k = -1) : k < bytes.length := by
  by_contra hk
  simp [sizeAt, List.getElem?_eq_none (Nat.le_of_not_lt hk)] at h

theorem of_charSizeAt_eq_ok {i n : ℕ} (h : charSizeAt bytes i = .ok n) :
    0 < n ∧ sizeAt bytes i = n ∧ ∀ k, i < k → k < i + n → sizeAt bytes k = -1 := by
  unfold charSizeAt at h
  split_ifs at h with hpos
  split at h
  · cases h
  · rename_i hfind
    obtain rfl := Except.ok.inj h
    refine ⟨by omega, by omega, fun k hik hk => ?_⟩
    simpa using List.find?_eq_none.1 hfind k (List.mem_range'_1.2 (by omega))

theorem le_of_charSizeAt {i n : ℕ} (hi : i < bytes.length) (h : charSizeAt bytes i = .ok n) :
    i + n ≤ bytes.length := by
  obtain ⟨hpos, -, hcont⟩ := of_charSizeAt_eq_ok h
  by_contra hlong
  have hlast := lt_of_sizeAt_eq (hcont (i + n - 1) (by omega) (by omega))
  omega

/-- What a round takes is a character. -/
theorem isChar_of_charSizeAt {i n : ℕ} (hi : i < bytes.length) (h : charSizeAt bytes i = .ok n) :
    IsChar ((bytes.drop i).take n) := by
  have hfit := le_of_charSizeAt hi h
  obtain ⟨hpos, hsize, hcont⟩ := of_charSizeAt_eq_ok h
  obtain ⟨m, rfl⟩ : ∃ m, n = m + 1 := ⟨n - 1, by omega⟩
  rw [sizeAt_eq_of_lt hi] at hsize
  rw [List.drop_eq_getElem_cons hi, List.take_succ_cons]
  refine ⟨bytes[i], (bytes.drop (i + 1)).take m, rfl, ?_, fun x hx => ?_⟩
  · rw [hsize, List.length_cons, List.length_take, List.length_drop]
    omega
  · obtain ⟨j, hj, rfl⟩ := List.mem_iff_getElem.1 hx
    rw [List.length_take, List.length_drop] at hj
    have hk := hcont (i + 1 + j) (by omega) (by omega)
    rw [sizeAt_eq_of_lt (by omega)] at hk
    rwa [List.getElem_take, List.getElem_drop]

theorem charIndexFrom_of_chars (cs : List Text) : ∀ (before : Text) (rounds : ℕ),
    (∀ c ∈ cs, IsChar c) → cs.length ≤ rounds →
    charIndexFrom (before ++ cs.flatten) rounds before.length = .ok (starts before.length cs) := by
  induction cs with
  | nil =>
    intro before rounds _ _
    cases rounds <;> simp [charIndexFrom, starts]
  | cons c cs ih =>
    intro before rounds hcs hrounds
    obtain ⟨r, rfl⟩ : ∃ r, rounds = r + 1 := ⟨rounds - 1, by simp at hrounds; omega⟩
    have hc := hcs c (by simp)
    have hpos := hc.length_pos
    have hrest := ih (before ++ c) r (fun d hd => hcs d (by simp [hd])) (by simpa using hrounds)
    rw [List.append_assoc, List.length_append] at hrest
    rw [charIndexFrom, List.flatten_cons, if_pos (by simp; omega), charSizeAt_append _ _ _ hc]
    simp only [bind, Except.bind, hrest]
    rfl

theorem exists_chars_of_charIndexFrom (rounds : ℕ) : ∀ {i : ℕ} {idx : List ℕ},
    bytes.length ≤ i + rounds → charIndexFrom bytes rounds i = .ok idx →
    ∃ cs, (∀ c ∈ cs, IsChar c) ∧ bytes.drop i = cs.flatten ∧ idx = starts i cs := by
  induction rounds with
  | zero =>
    rintro i idx hi ⟨⟩
    exact ⟨[], by simp, by simp; omega, rfl⟩
  | succ rounds ih =>
    intro i idx hi h
    rw [charIndexFrom] at h
    split_ifs at h with hlt
    · cases hsize : charSizeAt bytes i with
      | error e =>
        rw [hsize] at h
        cases h
      | ok n =>
        cases hrest : charIndexFrom bytes rounds (i + n) with
        | error e =>
          simp only [hsize, hrest, bind, Except.bind] at h
          cases h
        | ok rest =>
          simp only [hsize, hrest, bind, Except.bind, pure, Except.pure] at h
          obtain rfl := Except.ok.inj h
          have hpos := (of_charSizeAt_eq_ok hsize).1
          have hfit := le_of_charSizeAt hlt hsize
          obtain ⟨cs, hcs, hdrop, rfl⟩ := ih (by omega) hrest
          refine ⟨(bytes.drop i).take n :: cs, ?_, ?_, ?_⟩
          · rw [List.forall_mem_cons]
            exact ⟨isChar_of_charSizeAt hlt hsize, hcs⟩
          · rw [List.flatten_cons, ← hdrop, ← List.drop_drop, List.take_append_drop]
          · rw [starts, List.length_take, List.length_drop, Nat.min_eq_left (by omega)]
    · obtain rfl := Except.ok.inj h
      exact ⟨[], by simp, by simp; omega, rfl⟩

/-- **The texts `validate_utf8` accepts.** -/
theorem validateUtf8_eq_ok_iff {idx : List ℕ} : validateUtf8 s = .ok idx ↔
    ∃ cs, (∀ c ∈ cs, IsChar c) ∧ s = cs.flatten ∧ idx = starts 0 cs := by
  constructor
  · intro h
    simpa using exists_chars_of_charIndexFrom s.length (by omega) h
  · rintro ⟨cs, hcs, rfl, rfl⟩
    exact charIndexFrom_of_chars cs [] cs.flatten.length hcs (length_le_flatten hcs)

/-! ## Counting -/

theorem utf8Length_eq_ok_iff {n : ℕ} : utf8Length s = .ok n ↔
    ∃ cs : List Text, (∀ c ∈ cs, IsChar c) ∧ s = cs.flatten ∧ cs.length = n := by
  constructor
  · intro h
    cases hidx : validateUtf8 s with
    | error e =>
      rw [utf8Length, hidx] at h
      cases h
    | ok idx =>
      rw [utf8Length, hidx] at h
      obtain ⟨cs, hcs, hs, rfl⟩ := validateUtf8_eq_ok_iff.1 hidx
      exact ⟨cs, hcs, hs, (length_starts 0 cs).symm.trans (Except.ok.inj h)⟩
  · rintro ⟨cs, hcs, rfl, rfl⟩
    rw [utf8Length, validateUtf8_eq_ok_iff.2 ⟨cs, hcs, rfl, rfl⟩, Except.map, length_starts]

theorem exists_utf8Length (h : (validateUtf8 s).isOk = true) : ∃ n, utf8Length s = .ok n := by
  cases hidx : validateUtf8 s with
  | error e =>
    rw [hidx] at h
    cases h
  | ok idx => exact ⟨idx.length, by rw [utf8Length, hidx, Except.map]⟩

theorem utf8Length_append {m n : ℕ} (hs : utf8Length s = .ok m) (ht : utf8Length t = .ok n) :
    utf8Length (s ++ t) = .ok (m + n) := by
  obtain ⟨cs, hcs, rfl, rfl⟩ := utf8Length_eq_ok_iff.1 hs
  obtain ⟨ds, hds, rfl, rfl⟩ := utf8Length_eq_ok_iff.1 ht
  refine utf8Length_eq_ok_iff.2 ⟨cs ++ ds, fun c hc => ?_, by simp, by simp⟩
  exact (List.mem_append.1 hc).elim (hcs c) (hds c)

theorem isChar_singleton {b : Char} (hb : byteSize b = 1) : IsChar [b] :=
  ⟨b, [], rfl, hb, by simp⟩

theorem utf8Length_replicate {b : Char} (hb : byteSize b = 1) (n : ℕ) :
    utf8Length (List.replicate n b) = .ok n := by
  refine utf8Length_eq_ok_iff.2 ⟨List.replicate n [b], fun c hc => ?_, ?_, by simp⟩
  · rw [List.eq_of_mem_replicate hc]
    exact isChar_singleton hb
  · induction n with
    | zero => rfl
    | succ n ih => rw [List.replicate_succ, List.replicate_succ, List.flatten_cons, ← ih,
        List.singleton_append]

theorem utf8Length_cons {b : Char} (hb : byteSize b = 1) {n : ℕ} (hs : utf8Length s = .ok n) :
    utf8Length (b :: s) = .ok (n + 1) := by
  rw [Nat.add_comm]
  exact utf8Length_append (utf8Length_replicate hb 1) hs

/-! ## `utf8_substr` -/

theorem element_natCast (l : List ℕ) (k : ℕ) : element l k = l[k]?.getD 0 := by
  rw [element, if_pos (Int.natCast_nonneg k), Int.toNat_natCast]

/-- Where the characters `bs` start. -/
theorem element_starts (as : List Text) {bs : List Text} (hbs : bs ≠ []) :
    element (starts 0 (as ++ bs)) as.length = as.flatten.length := by
  obtain ⟨b, bs, rfl⟩ := List.exists_cons_of_ne_nil hbs
  rw [element_natCast, getElem?_starts_append, Option.getD_some, Nat.zero_add]

section Cut

variable {as bs ds : List Text} {off len : ℤ}

/-- The offset of the characters `bs`, from the front or from the end. -/
def StandsAt (as bs : List Text) (off : ℤ) : Prop := off = as.length ∨ off = -(bs.length : ℤ)

/-- `utf8_substr`, where its offset is that of the characters `bs`. -/
theorem utf8Substr_eq (hcs : ∀ c ∈ as ++ bs, IsChar c) (hbs : bs ≠ []) (hoff : StandsAt as bs off)
    (len : ℤ) :
    utf8Substr (as ++ bs).flatten off len = .ok (if len < bs.length then
      bs.flatten.take (element (starts 0 (as ++ bs)) (as.length + len - 1) + 1 -
        as.flatten.length) else bs.flatten) := by
  have hvalid : validateUtf8 (as ++ bs).flatten = .ok (starts 0 (as ++ bs)) :=
    validateUtf8_eq_ok_iff.2 ⟨as ++ bs, hcs, rfl, rfl⟩
  have hpos : 0 < bs.length := List.length_pos_of_ne_nil hbs
  have hat : (if off < 0 then off + ((as ++ bs).length : ℤ) else off) = as.length := by
    rw [List.length_append]
    rcases hoff with rfl | rfl
    · rw [if_neg (by omega)]
    · rw [if_pos (by omega)]
      omega
  have hlt : (as.length : ℤ) + len < (as ++ bs).length ↔ len < bs.length := by
    rw [List.length_append]
    omega
  have hdrop : (as ++ bs).flatten.drop as.flatten.length = bs.flatten := by
    rw [List.flatten_append, List.drop_left]
  simp only [utf8Substr, hvalid, bind, Except.bind, pure, Except.pure, length_starts, hat,
    element_starts as hbs, hdrop, hlt]
  split_ifs with hcut
  · rfl
  · rfl

/-- **A cut**: the last character is cut behind its first byte. -/
theorem utf8Substr_of_lt (hcs : ∀ x ∈ as ++ (bs ++ c :: ds), IsChar x) (hds : ds ≠ [])
    (hoff : StandsAt as (bs ++ c :: ds) off) :
    utf8Substr (as ++ (bs ++ c :: ds)).flatten off (bs.length + 1) =
      .ok (bs.flatten ++ c.take 1) := by
  have hpos : 0 < ds.length := List.length_pos_of_ne_nil hds
  have hlast : element (starts 0 (as ++ (bs ++ c :: ds))) (as.length + (bs.length + 1) - 1) =
      as.flatten.length + bs.flatten.length := by
    have hplace : ((as.length : ℤ) + (bs.length + 1) - 1) = ((as ++ bs).length : ℕ) := by
      rw [List.length_append]
      omega
    rw [hplace, ← List.append_assoc, element_starts _ (List.cons_ne_nil _ _),
      List.flatten_append, List.length_append]
  obtain ⟨b, t, rfl, -⟩ := hcs c (by simp)
  rw [utf8Substr_eq hcs (by simp) hoff, if_pos (by simp; omega), hlast]
  rw [show as.flatten.length + bs.flatten.length + 1 - as.flatten.length =
    bs.flatten.length + 1 by omega]
  rw [List.flatten_append, List.take_length_add_append]
  rfl

/-- **No cut**: all characters from the offset on. -/
theorem utf8Substr_of_le (hcs : ∀ x ∈ as ++ bs, IsChar x) (hbs : bs ≠ [])
    (hoff : StandsAt as bs off) (hlen : bs.length ≤ len) :
    utf8Substr (as ++ bs).flatten off len = .ok bs.flatten := by
  rw [utf8Substr_eq hcs hbs hoff, if_neg (Int.not_lt.2 hlen)]

end Cut

/-- The number of the character at an offset; a negative one counts from
the end. -/
def charOffset (n : ℕ) (off : ℤ) : ℕ := (if off < 0 then off + n else off).toNat

/-- The characters from an offset on, at most `len` of them, with all
their bytes. -/
def substr (cs : List Text) (off len : ℤ) : Text :=
  ((cs.drop (charOffset cs.length off)).take len.toNat).flatten

theorem drop_ne_nil {k : ℕ} (hk : k < cs.length) : cs.drop k ≠ [] := by
  rw [Ne, List.drop_eq_nil_iff]
  omega

theorem take_one_eq_iff (hc : IsChar c) : c.take 1 = c ↔ c.length = 1 := by
  have hpos := hc.length_pos
  rw [List.take_eq_self_iff]
  omega

/-- The offset of a character that there is. -/
theorem standsAt_charOffset {off : ℤ} (hlow : -(cs.length : ℤ) ≤ off) (hhigh : off < cs.length) :
    charOffset cs.length off < cs.length ∧
      StandsAt (cs.take (charOffset cs.length off)) (cs.drop (charOffset cs.length off)) off := by
  rw [StandsAt, List.length_take, List.length_drop, charOffset]
  split_ifs with hneg
  · omega
  · omega

/-- Characters `o` to `o + n`, with more behind them. -/
theorem utf8Substr_take {off : ℤ} {o n : ℕ} (hcs : ∀ c ∈ cs, IsChar c)
    (hoff : StandsAt (cs.take o) (cs.drop o) off) (hc : cs[o + n]? = some c)
    (hmore : o + n + 1 < cs.length) :
    utf8Substr cs.flatten off (n + 1) = .ok (((cs.drop o).take n).flatten ++ c.take 1) := by
  obtain ⟨hn, hget⟩ := List.getElem?_eq_some_iff.1 hc
  have hsplit : cs.drop o = (cs.drop o).take n ++ c :: cs.drop (o + n + 1) := by
    rw [← hget, ← List.drop_eq_getElem_cons hn, ← List.drop_drop, List.take_append_drop]
  have hbs : ((cs.drop o).take n).length = n := by
    rw [List.length_take, List.length_drop]
    omega
  have hcut := @utf8Substr_of_lt c (cs.take o) ((cs.drop o).take n) (cs.drop (o + n + 1)) off
  rw [← hsplit, List.take_append_drop, hbs] at hcut
  exact hcut hcs (drop_ne_nil hmore) hoff

/-- All characters from `o` on. -/
theorem utf8Substr_drop {off len : ℤ} {o : ℕ} (hcs : ∀ c ∈ cs, IsChar c)
    (hoff : StandsAt (cs.take o) (cs.drop o) off) (ho : o < cs.length)
    (hlen : (cs.length : ℤ) ≤ o + len) :
    utf8Substr cs.flatten off len = .ok (cs.drop o).flatten := by
  have hrest := @utf8Substr_of_le (cs.take o) (cs.drop o) off len
  rw [List.take_append_drop, List.length_drop] at hrest
  exact hrest hcs (drop_ne_nil ho) hoff (by omega)

/-- **`utf8_substr` returns the characters from an offset on** if and only
if it takes all of them, or the last one it takes has one byte. -/
theorem utf8Substr_eq_iff {s : Text} {idx : List ℕ} (h : validateUtf8 s = .ok idx) :
    ∃ cs, (∀ c ∈ cs, IsChar c) ∧ s = cs.flatten ∧ idx = starts 0 cs ∧
      ∀ off len : ℤ, -(cs.length : ℤ) ≤ off → off < cs.length → 1 ≤ len →
        (utf8Substr s off len = .ok (substr cs off len) ↔
          (cs.length : ℤ) ≤ charOffset cs.length off + len ∨
            ∀ c, cs[charOffset cs.length off + len.toNat - 1]? = some c → c.length = 1) := by
  obtain ⟨cs, hcs, rfl, hidx⟩ := validateUtf8_eq_ok_iff.1 h
  refine ⟨cs, hcs, rfl, hidx, fun off len hlow hhigh hlen => ?_⟩
  obtain ⟨hlt, hoff⟩ := standsAt_charOffset hlow hhigh
  rw [substr]
  generalize charOffset cs.length off = o at hlt hoff ⊢
  obtain ⟨n, rfl⟩ : ∃ n : ℕ, len = n + 1 := ⟨(len - 1).toNat, by omega⟩
  have htoNat : ((n : ℤ) + 1).toNat = n + 1 := by omega
  rw [htoNat, ← Nat.add_assoc, Nat.add_sub_cancel]
  rcases Nat.lt_or_ge (o + n + 1) cs.length with hcut | hall
  · -- the last character that is taken
    obtain ⟨c, hc⟩ : ∃ c, cs[o + n]? = some c := ⟨_, List.getElem?_eq_getElem (by omega)⟩
    have htake : (cs.drop o).take (n + 1) = (cs.drop o).take n ++ [c] := by
      rw [List.take_add_one, List.getElem?_drop, hc]
      rfl
    rw [utf8Substr_take hcs hoff hc hcut, htake, List.flatten_append, List.flatten_singleton,
      Except.ok.injEq, List.append_cancel_left_eq,
      take_one_eq_iff (hcs c (List.mem_of_getElem? hc)), hc]
    constructor
    · rintro hone
      exact .inr fun d hd => Option.some.inj hd ▸ hone
    · rintro (hle | hone)
      · omega
      · exact hone c rfl
  · refine iff_of_true ?_ (.inl (by omega))
    rw [utf8Substr_drop hcs hoff hlt (by omega),
      List.take_of_length_le (by rw [List.length_drop]; omega)]

/-- A character of two bytes, and one of a single byte. -/
def accented : List Text := [['\xc3', '\xa9'], ['b']]

theorem utf8Substr_eq_iff_accented : validateUtf8 accented.flatten = .ok [0, 2] ∧
    ∃ cs, (∀ c ∈ cs, IsChar c) ∧ accented.flatten = cs.flatten ∧ [0, 2] = starts 0 cs ∧
      ∀ off len : ℤ, -(cs.length : ℤ) ≤ off → off < cs.length → 1 ≤ len →
        (utf8Substr accented.flatten off len = .ok (substr cs off len) ↔
          (cs.length : ℤ) ≤ charOffset cs.length off + len ∨
            ∀ c, cs[charOffset cs.length off + len.toNat - 1]? = some c → c.length = 1) := by
  have hvalid : validateUtf8 accented.flatten = .ok [0, 2] := by decide
  exact ⟨hvalid, utf8Substr_eq_iff hvalid⟩

/-- **Half a character** is what `utf8_substr` returns of the first one. -/
theorem utf8Substr_accented : validateUtf8 accented.flatten = .ok [0, 2] ∧
    (∀ c ∈ accented, IsChar c) ∧ utf8Substr accented.flatten 0 1 = .ok ['\xc3'] ∧
    substr accented 0 1 = ['\xc3', '\xa9'] := by
  refine ⟨by decide, fun c hc => ?_, by decide, by decide⟩
  rcases List.mem_cons.1 hc with rfl | hc
  · refine ⟨'\xc3', ['\xa9'], rfl, by decide, fun b hb => ?_⟩
    rw [List.mem_singleton.1 hb]
    decide
  · rw [List.mem_singleton.1 hc]
    exact isChar_singleton (by decide)

/-- **The first characters up to one of a single byte**, whatever is
behind it. -/
theorem utf8Substr_zero {s t : Text} {b : Char} {m n : ℕ} (hs : utf8Length s = .ok m)
    (hb : byteSize b = 1) (ht : utf8Length t = .ok n) :
    utf8Substr (s ++ b :: t) 0 ((m : ℤ) + 1) = .ok (s ++ [b]) := by
  obtain ⟨cs, hcs, rfl, rfl⟩ := utf8Length_eq_ok_iff.1 hs
  obtain ⟨ds, hds, rfl, rfl⟩ := utf8Length_eq_ok_iff.1 ht
  have hall : ∀ c ∈ [] ++ (cs ++ [b] :: ds), IsChar c := by
    intro c hc
    rw [List.nil_append] at hc
    rcases List.mem_append.1 hc with hc | hc
    · exact hcs c hc
    · rcases List.mem_cons.1 hc with rfl | hc
      · exact isChar_singleton hb
      · exact hds c hc
  have hfront : StandsAt [] (cs ++ [b] :: ds) 0 := .inl rfl
  have hflat : cs.flatten ++ b :: ds.flatten = ([] ++ (cs ++ [b] :: ds)).flatten := by simp
  rw [hflat]
  rcases eq_or_ne ds [] with rfl | hne
  · -- nothing is behind the character
    rw [utf8Substr_of_le hall (by simp) hfront (by simp), List.flatten_append]
    rfl
  · rw [utf8Substr_of_lt hall hne hfront]
    rfl

/-- A cell padded to a column it fits in: a blank, the text, and blanks up
to the width. -/
theorem padCell_eq {text : Text} {n w : ℕ} (htext : utf8Length text = .ok n) (hw : n ≤ w) :
    padCell w text = .ok (' ' :: text ++ List.replicate (w + 1 - n) ' ') := by
  have hblank : byteSize ' ' = 1 := by decide
  have hbefore := utf8Length_append (utf8Length_cons hblank htext)
    (utf8Length_replicate hblank (w - n))
  have hcut := utf8Substr_zero hbefore hblank (utf8Length_replicate hblank n)
  have hsplit : ' ' :: text ++ List.replicate (w + 1) ' ' =
      (' ' :: text ++ List.replicate (w - n) ' ') ++ ' ' :: List.replicate n ' ' := by
    rw [← List.replicate_succ, List.append_assoc, List.replicate_append_replicate]
    congr 2
    omega
  have hlen : ((n + 1 + (w - n) : ℕ) : ℤ) + 1 = (w : ℤ) + 2 := by omega
  rw [hlen] at hcut
  rw [padCell, hsplit, hcut, List.append_assoc, ← List.replicate_succ', ← Nat.sub_add_comm hw]

end Csvtable

end CppEtudes
