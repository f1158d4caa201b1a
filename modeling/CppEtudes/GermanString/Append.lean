import CppEtudes.GermanString.Construct
import CppEtudes.GermanString.Model.Append

/-!
# What an append leaves

`append` compares the length of the appended bytes with the bound of an
inline string, not the length of the whole string, and takes the bytes
behind the prefix of an inline string for a pointer. So it is right where
the result still fits inline, and where the string has four bytes and
more than twelve are appended (`append_correct_iff`).
-/

namespace CppEtudes

namespace GermanString

variable {memory : Heap} {obj : ℕ} {s t : List UInt8}

/-! ## Objects in memory -/

theorem length_littleEndian (size x : ℕ) : (littleEndian size x).length = size := by
  rw [littleEndian, List.length_map, List.length_range]

theorem memcpy_littleEndian {addr size x i : ℕ} (hi : i < size) :
    memory.memcpy addr (littleEndian size x) (addr + i) = byte x i := by
  have hi' : i < (littleEndian size x).length := by rwa [length_littleEndian]
  rw [Heap.memcpy_of_lt hi']
  simp [littleEndian]

/-- `len` is read from its bytes. -/
theorem len_load {x : ℕ} (hx : x < 2 ^ 32) (h : ∀ i < 4, memory (obj + i) = byte x i) :
    (memory.load obj).len = x := by
  have hlen : (memory.load obj).len =
      Nat.ofDigits 256 ((List.range 4).map fun i => (byte x i).toNat) := by
    have hzero : memory obj = byte x 0 := h 0 (by decide)
    rw [Heap.load]
    dsimp only
    rw [hzero, h 1 (by decide), h 2 (by decide), h 3 (by decide)]
    rfl
  rw [hlen, ofDigits_byte]
  exact Nat.mod_eq_of_lt hx

theorem len_load_lt (memory : Heap) (obj : ℕ) : (memory.load obj).len < 2 ^ 32 := by
  have h₀ := (memory obj).toNat_lt
  have h₁ := (memory (obj + 1)).toNat_lt
  have h₂ := (memory (obj + 2)).toNat_lt
  have h₃ := (memory (obj + 3)).toNat_lt
  rw [Heap.load]
  dsimp only
  omega

theorem str_load {i : ℕ} (hi : i < 12) : (memory.load obj).str i = memory (obj + 4 + i) := by
  rw [str, dif_pos hi]
  rfl

/-- **An inline string in memory**: behind its bytes, the pointer has
zeros. -/
structure Inline (memory : Heap) (obj : ℕ) (s : List UInt8) : Prop where
  len : ∀ i < 4, memory (obj + i) = byte s.length i
  str : ∀ (i : ℕ) (hi : i < s.length), memory (obj + 4 + i) = s[i]
  zero : ∀ i, 4 ≤ i → s.length ≤ i → i < 12 → memory (obj + 4 + i) = 0

theorem construct_of_lt (hs : s.length ≤ 12) {remaining : UInt64} {i : ℕ} (hi : i < 16) :
    construct memory obj s remaining (obj + i) =
      (new memory (memory.load obj).rep s remaining).1.raw i := by
  have hi' : i < (bytes (new memory (memory.load obj).rep s remaining).1.raw 16).length := by
    rwa [length_bytes]
  rw [construct, new_of_le hs]
  rw [new_of_le hs] at hi'
  exact (Heap.memcpy_of_lt hi').trans (getElem_bytes hi')

theorem construct_of_apart (hs : s.length ≤ 12) {remaining : UInt64} {a : ℕ}
    (ha : a < obj ∨ obj + 16 ≤ a) : construct memory obj s remaining a = memory a := by
  rw [construct, new_of_le hs]
  exact Heap.memcpy_of_apart (by rwa [length_bytes])

theorem inline_construct (memory : Heap) (obj : ℕ) (hs : s.length ≤ 12) (remaining : UInt64) :
    Inline (construct memory obj s remaining) obj s := by
  refine ⟨fun i hi => ?_, fun i hi => ?_, fun i h4 hle hi => ?_⟩
  · rw [construct_of_lt hs (by omega), raw, if_pos hi, len_new, Nat.mod_eq_of_lt (by omega)]
  · rw [Nat.add_assoc, construct_of_lt hs (by omega), raw, if_neg (by omega),
      Nat.add_sub_cancel_left, str_new_of_le hs hi]
  · rw [Nat.add_assoc, construct_of_lt hs (by omega), raw, if_neg (by omega),
      Nat.add_sub_cancel_left, GermanString.str, dif_pos hi, new_of_le hs]
    dsimp only
    rw [setStr_of_le hle, setPtr_of_le h4, byte, Nat.zero_div]
    rfl

/-! ## One call -/

/-- **A call of `append`**, with the memory it finds: the area that
`remaining` points to has enough room and is apart from the object. -/
structure AppendCall (s t : List UInt8) where
  memory : Heap
  obj : ℕ
  remaining : UInt64
  room : ℕ
  enough : 12 < s.length + t.length → s.length + t.length - 4 ≤ room
  apart : ∀ i < 16, ∀ j < room, obj + i ≠ remaining.toNat + j

namespace AppendCall

variable (c : AppendCall s t)

/-- The memory with the string `s`. -/
def before : Heap := construct c.memory c.obj s 0

def after : Written := append ⟨c.before, []⟩ c.obj t c.remaining

/-- An address in the object or in the area. -/
def Inside (a : ℕ) : Prop :=
  (c.obj ≤ a ∧ a < c.obj + 16) ∨ (c.remaining.toNat ≤ a ∧ a < c.remaining.toNat + c.room)

/-- **The call is right**: the string has `t` behind `s`, and nothing else
is written. -/
structure Correct : Prop where
  string : toString c.after.memory (c.after.memory.load c.obj) = s ++ t
  inside : ∀ w ∈ c.after.writes, ∀ i < w.2, c.Inside (w.1 + i)

/-- The memory with the new `len`. -/
def grown : Heap := c.before.memcpy c.obj (littleEndian 4 ((s.length + t.length) % 2 ^ 32))

/-- The length of the bytes behind the prefix, as the code computes it. -/
def frontLen (s : List UInt8) : ℕ := (s.length + 2 ^ 32 - prefixLength) % 2 ^ 32

/-- What is read behind the prefix. -/
def front : List UInt8 := bytes (c.grown.chars (c.grown.load c.obj).ptr) (frontLen s)

variable {c}

theorem len_before (hs : s.length ≤ 12) : (c.before.load c.obj).len = s.length :=
  len_load (by omega) (inline_construct c.memory c.obj hs 0).len

theorem after_of_le (hs : s.length ≤ 12) (ht : t.length ≤ 12) :
    c.after = ⟨c.grown.memcpy (c.obj + 4 + s.length) t,
      [(c.obj, 4), (c.obj + 4 + s.length, t.length)]⟩ := by
  rw [after, append]
  dsimp only
  rw [len_before hs, if_pos (show t.length ≤ inlineMaxLength from ht)]
  rfl

theorem after_of_lt (hs : s.length ≤ 12) (ht : 12 < t.length) :
    c.after = ⟨((c.grown.memcpy c.remaining.toNat c.front).memcpy
        (c.remaining.toNat + frontLen s) t).memcpy (c.obj + 8)
          (littleEndian 8 c.remaining.toNat),
      [(c.obj, 4), (c.remaining.toNat, frontLen s), (c.remaining.toNat + frontLen s, t.length),
        (c.obj + 8, 8)]⟩ := by
  rw [after, append]
  dsimp only
  rw [len_before hs, if_neg (show ¬ t.length ≤ inlineMaxLength from Nat.not_le.2 ht),
    if_pos (show s.length ≤ inlineMaxLength from hs)]
  simp only [Written.memcpy, length_littleEndian, length_bytes, List.nil_append,
    List.cons_append, front, grown, frontLen]

/-! ## Where it is right -/

theorem grown_of_le {i : ℕ} (hi : 4 ≤ i) : c.grown (c.obj + i) = c.before (c.obj + i) :=
  Heap.memcpy_of_apart (.inr (by rw [length_littleEndian]; omega))

/-- **A result that fits inline.** -/
theorem correct_of_le (h : s.length + t.length ≤ 12) : c.Correct := by
  have hs : s.length ≤ 12 := by omega
  have hin := inline_construct c.memory c.obj hs 0
  have hafter := c.after_of_le hs (t := t) (by omega)
  have hlen : (c.after.memory.load c.obj).len = s.length + t.length := by
    rw [hafter]
    refine len_load (by omega) fun i hi => ?_
    dsimp only
    rw [Heap.memcpy_of_apart (.inl (by omega)), grown, memcpy_littleEndian hi,
      Nat.mod_eq_of_lt (by omega)]
  refine ⟨?_, fun w hw i hi => .inl ?_⟩
  · rw [toString_of_inline (by omega), hlen, ← List.length_append]
    refine bytes_eq fun i hi => ?_
    rw [List.length_append] at hi
    rw [str_load (by omega), hafter]
    dsimp only
    rcases Nat.lt_or_ge i s.length with his | his
    · rw [Heap.memcpy_of_apart (.inl (by omega)), Nat.add_assoc, grown_of_le (by omega),
        ← Nat.add_assoc, List.getElem_append_left his]
      exact hin.str i his
    · have hit : i - s.length < t.length := by omega
      have haddr : c.obj + 4 + i = c.obj + 4 + s.length + (i - s.length) := by omega
      rw [List.getElem_append_right his, haddr, Heap.memcpy_of_lt hit]
  · rw [hafter] at hw
    simp only [List.mem_cons, List.not_mem_nil, or_false] at hw
    rcases hw with rfl | rfl
    · dsimp only at hi ⊢
      omega
    · dsimp only at hi ⊢
      omega

theorem lt_or_le_of_lt {i n : ℕ} (hi : i < 16) (hn : n ≤ c.room) :
    c.obj + i < c.remaining.toNat ∨ c.remaining.toNat + n ≤ c.obj + i := by
  by_contra hin
  rw [not_or, Nat.not_lt, Nat.not_le] at hin
  exact c.apart i hi (c.obj + i - c.remaining.toNat) (by omega) (by omega)

theorem frontLen_eq (h4 : 4 ≤ s.length) (hs : s.length ≤ 12) : frontLen s = s.length - 4 := by
  rw [frontLen, prefixLength]
  omega

/-- The length and the prefix are not written any more. -/
theorem after_of_lt_eight (h4 : 4 ≤ s.length) (hs : s.length ≤ 12) (ht : 12 < t.length) {i : ℕ}
    (hi : i < 8) : c.after.memory (c.obj + i) = c.grown (c.obj + i) := by
  have hlenf := frontLen_eq h4 hs
  have hfront : c.front.length = s.length - 4 := length_bytes.trans hlenf
  have hroom := c.enough (by omega)
  have hfst : c.obj + i < c.remaining.toNat ∨ c.remaining.toNat + (s.length - 4) ≤ c.obj + i :=
    c.lt_or_le_of_lt (by omega) (by omega)
  have hsnd := c.lt_or_le_of_lt (Nat.lt_trans hi (by decide)) hroom
  rw [c.after_of_lt hs ht]
  dsimp only
  rw [Heap.memcpy_of_apart (.inl (by omega)), Heap.memcpy_of_apart (by omega),
    Heap.memcpy_of_apart (by omega)]

/-- **The area** has what was read and then the appended bytes. -/
theorem bytes_area_after (h4 : 4 ≤ s.length) (hs : s.length ≤ 12) (ht : 12 < t.length) :
    bytes (c.after.memory.chars c.remaining.toNat) (c.front ++ t).length = c.front ++ t := by
  have hlenf := frontLen_eq h4 hs
  have hfront : c.front.length = s.length - 4 := length_bytes.trans hlenf
  have hroom := c.enough (by omega)
  refine bytes_eq fun j hj => ?_
  rw [List.length_append] at hj
  -- the pointer that is written last is in the object
  have hapart : c.remaining.toNat + j < c.obj + 8 ∨ c.obj + 8 + 8 ≤ c.remaining.toNat + j := by
    by_contra hin
    rw [not_or, Nat.not_lt, Nat.not_le] at hin
    exact c.apart (c.remaining.toNat + j - c.obj) (by omega) j (by omega) (by omega)
  rw [Heap.chars, c.after_of_lt hs ht]
  dsimp only
  rw [Heap.memcpy_of_apart (by rwa [length_littleEndian])]
  rcases Nat.lt_or_ge j c.front.length with hjf | hjf
  · rw [Heap.memcpy_of_apart (.inl (by omega)), Heap.memcpy_of_lt hjf,
      List.getElem_append_left hjf]
  · have hjt : j - c.front.length < t.length := by omega
    have haddr : c.remaining.toNat + j =
        c.remaining.toNat + frontLen s + (j - c.front.length) := by omega
    rw [List.getElem_append_right hjf, haddr, Heap.memcpy_of_lt hjt]

/-- **The string behind a long append**: the prefix, what was read behind
it, and the appended bytes. -/
theorem toString_after (h4 : 4 ≤ s.length) (hs : s.length ≤ 12) (ht : 12 < t.length)
    (hlt : s.length + t.length < 2 ^ 32) :
    toString c.after.memory (c.after.memory.load c.obj) = s.take 4 ++ (c.front ++ t) := by
  have hfront : c.front.length = s.length - 4 := length_bytes.trans (frontLen_eq h4 hs)
  have hlen : (c.after.memory.load c.obj).len = s.length + t.length := by
    refine len_load hlt fun i hi => ?_
    rw [after_of_lt_eight h4 hs ht (by omega), grown, memcpy_littleEndian hi,
      Nat.mod_eq_of_lt hlt]
  have hptr : (c.after.memory.load c.obj).ptr = c.remaining.toNat := by
    refine ptr_eq c.remaining.toNat_lt fun i j hj => ?_
    rw [c.after_of_lt hs ht, Heap.load]
    dsimp only
    rw [hj, show c.obj + 4 + (j + 4) = c.obj + 8 + j by omega, memcpy_littleEndian (by omega)]
  have htake : (s.take 4).length = 4 := by
    rw [List.length_take]
    omega
  have hstr : bytes (c.after.memory.load c.obj).str (s.take 4).length = s.take 4 := by
    refine bytes_eq fun i hi => ?_
    rw [str_load (by omega), Nat.add_assoc, after_of_lt_eight h4 hs ht (by omega),
      grown_of_le (by omega), ← Nat.add_assoc, List.getElem_take]
    exact (inline_construct c.memory c.obj hs 0).str i (by omega)
  have harea := bytes_area_after h4 hs ht (c := c)
  rw [List.length_append, hfront] at harea
  rw [htake] at hstr
  rw [toString_of_long (by omega), hlen, hptr, hstr,
    show s.length + t.length - 4 = s.length - 4 + t.length by omega, harea]

/-- **Four bytes** are all of the prefix. -/
theorem correct_of_four (hs : s.length = 4) (ht : 12 < t.length)
    (hlt : s.length + t.length < 2 ^ 32) : c.Correct := by
  have hzero : frontLen s = 0 := (frontLen_eq (by omega) (by omega)).trans (by omega)
  have hfront : c.front = [] := List.eq_nil_of_length_eq_zero (length_bytes.trans hzero)
  have hroom := c.enough (by omega)
  refine ⟨?_, fun w hw i hi => ?_⟩
  · rw [toString_after (by omega) (by omega) ht hlt, hfront, List.take_of_length_le (by omega)]
    rfl
  · rw [c.after_of_lt (by omega) ht, hzero] at hw
    simp only [List.mem_cons, List.not_mem_nil, or_false] at hw
    rcases hw with rfl | rfl | rfl | rfl
    · exact .inl (by dsimp only at hi ⊢; omega)
    · exact absurd hi (Nat.not_lt_zero i)
    · exact .inr (by dsimp only at hi ⊢; omega)
    · exact .inl (by dsimp only at hi ⊢; omega)

/-! ## Where it is wrong -/

/-- A call with the object before the area, in memory that holds `b`. -/
def plain (s t : List UInt8) (b : UInt8) (obj : ℕ) (h : obj + 16 ≤ 3000) : AppendCall s t where
  memory _ := b
  obj := obj
  remaining := 3000
  room := s.length + t.length - 4
  enough _ := Nat.le_refl _
  apart i hi j _ := by
    have : (3000 : UInt64).toNat = 3000 := rfl
    omega

/-- Bytes that do not fit are written behind the object. -/
theorem not_correct_of_le (hs : s.length ≤ 12) (ht : t.length ≤ 12)
    (h : 12 < s.length + t.length) : ∃ c : AppendCall s t, ¬ c.Correct := by
  refine ⟨plain s t 0 0 (by decide), fun hc => ?_⟩
  have hinside := hc.inside (4 + s.length, t.length) (by
    rw [after_of_le hs ht]
    simp [plain]) (12 - s.length) (by omega)
  have hrem : (plain s t 0 0 (by decide)).remaining.toNat = 3000 := rfl
  rcases hinside with hin | hin
  · exact absurd hin.2 (by dsimp only [plain]; omega)
  · rw [hrem] at hin
    omega

/-- A length below four makes a copy of nearly `2^32` bytes. -/
theorem not_correct_of_lt (hs : s.length < 4) (ht : 12 < t.length)
    (hlt : s.length + t.length < 2 ^ 32) : ∃ c : AppendCall s t, ¬ c.Correct := by
  refine ⟨plain s t 0 0 (by decide), fun hc => ?_⟩
  have hlenf : frontLen s = s.length + 2 ^ 32 - 4 := by
    rw [frontLen, prefixLength]
    omega
  have hrem : (plain s t 0 0 (by decide)).remaining.toNat = 3000 := rfl
  have hinside := hc.inside (3000, frontLen s) (by
    rw [after_of_lt (by omega) ht, hrem]
    simp) (s.length + t.length - 4) (by dsimp only; omega)
  rcases hinside with hin | hin
  · exact absurd hin.2 (by dsimp only [plain]; omega)
  · rw [hrem] at hin
    exact absurd hin.2 (Nat.lt_irrefl _)

/-- The bytes behind the prefix of an inline string, as a pointer. -/
def frontPtr (s : List UInt8) : ℕ := ptr ⟨0, fun i => s.getD i.val 0⟩

theorem ptr_grown (hs : s.length ≤ 12) : (c.grown.load c.obj).ptr = frontPtr s := by
  have hin := inline_construct c.memory c.obj hs 0
  have hrep (i : Fin 12) (hi : 4 ≤ i.val) : (c.grown.load c.obj).rep i = s.getD i.val 0 := by
    rw [Heap.load]
    dsimp only
    rw [Nat.add_assoc, grown_of_le (by omega), ← Nat.add_assoc]
    rcases Nat.lt_or_ge i.val s.length with his | his
    · rw [List.getD_eq_getElem _ _ his]
      exact hin.str i.val his
    · rw [List.getD_eq_default _ _ his]
      exact hin.zero i.val hi his i.isLt
  rw [frontPtr, ptr, ptr, hrep 4 (by decide), hrep 5 (by decide), hrep 6 (by decide),
    hrep 7 (by decide), hrep 8 (by decide), hrep 9 (by decide), hrep 10 (by decide),
    hrep 11 (by decide)]

/-- The bytes behind the prefix are read from where they point to. -/
theorem not_correct_of_five_le (h5 : 5 ≤ s.length) (hs : s.length ≤ 12) (ht : 12 < t.length)
    (hlt : s.length + t.length < 2 ^ 32) : ∃ c : AppendCall s t, ¬ c.Correct := by
  have h4 : 4 < s.length := h5
  -- an object that does not lie there, in memory that holds another byte
  obtain ⟨obj, hobj, hapart⟩ : ∃ obj, obj + 16 ≤ 3000 ∧
      (frontPtr s < obj ∨ obj + 16 ≤ frontPtr s) := by
    rcases Nat.lt_or_ge (frontPtr s) 1000 with hlt | hge
    · exact ⟨2000, by decide, by omega⟩
    · exact ⟨0, by decide, by omega⟩
  refine ⟨plain s t (s[4] + 1) obj hobj, fun hc => ?_⟩
  obtain ⟨c, hplain⟩ : ∃ c, c = plain s t (s[4] + 1) obj hobj := ⟨_, rfl⟩
  rw [← hplain] at hc
  have hread : c.grown (frontPtr s) = s[4] + 1 := by
    have hmem (a : ℕ) : c.memory a = s[4] + 1 := by rw [hplain]; rfl
    have hadr : c.obj = obj := by rw [hplain]; rfl
    rw [grown, Heap.memcpy_of_apart (by rw [length_littleEndian, hadr]; omega), before,
      construct_of_apart hs (by rwa [hadr]), hmem]
  have hpos : 0 < c.front.length := by
    rw [front, length_bytes, frontLen_eq (by omega) hs]
    omega
  have hfront : c.front[0] = s[4] + 1 := by
    unfold front at hpos ⊢
    rw [getElem_bytes, ptr_grown hs, Heap.chars, Nat.add_zero, hread]
  have hstring : (s.take 4 ++ (c.front ++ t))[4]? = (s ++ t)[4]? := by
    rw [← hc.string, toString_after (by omega) hs ht hlt]
  have htake : (s.take 4).length = 4 := by
    rw [List.length_take]
    omega
  rw [List.getElem?_append_right (by omega), htake, Nat.sub_self, List.getElem?_append_left hpos,
    List.getElem?_append_left h4, List.getElem?_eq_getElem hpos, List.getElem?_eq_getElem h4,
    hfront] at hstring
  have hbyte := congrArg UInt8.toNat (Option.some.inj hstring)
  have hbound := s[4].toNat_lt
  rw [UInt8.toNat_add, UInt8.toNat_one] at hbyte
  omega

/-- More than `2^32` bytes do not have their length in `len`. -/
theorem not_correct_of_le_length (hlt : 2 ^ 32 ≤ s.length + t.length) (c : AppendCall s t) :
    ¬ c.Correct := by
  intro hc
  have hlen := congrArg List.length hc.string
  rw [length_toString, List.length_append] at hlen
  have := len_load_lt c.after.memory c.obj
  omega

end AppendCall

/-- **`append` is right** for all calls exactly where the result fits
inline, or where four bytes get more than twelve. -/
theorem append_correct_iff (hs : s.length ≤ 12) : (∀ c : AppendCall s t, c.Correct) ↔
    s.length + t.length ≤ 12 ∨
      s.length = 4 ∧ 12 < t.length ∧ s.length + t.length < 2 ^ 32 := by
  constructor
  · intro hall
    by_contra hnot
    obtain ⟨c, hc⟩ : ∃ c : AppendCall s t, ¬ c.Correct := by
      rcases Nat.lt_or_ge (s.length + t.length) (2 ^ 32) with hlt | hge
      · rcases Nat.lt_or_ge 12 t.length with ht | ht
        · rcases Nat.lt_or_ge s.length 4 with h4 | h4
          · exact AppendCall.not_correct_of_lt h4 ht hlt
          · exact AppendCall.not_correct_of_five_le (by omega) hs ht hlt
        · exact AppendCall.not_correct_of_le hs ht (by omega)
      · exact ⟨_, AppendCall.not_correct_of_le_length hge (.plain s t 0 0 (by decide))⟩
    exact hc (hall c)
  · rintro (h | ⟨h4, ht, hlt⟩) c
    · exact AppendCall.correct_of_le h
    · exact AppendCall.correct_of_four h4 ht hlt

theorem append_correct_three : (∀ c : AppendCall [1, 2, 3] [4], c.Correct) ↔
    3 + 1 ≤ 12 ∨ 3 = 4 ∧ 12 < 1 ∧ 3 + 1 < 2 ^ 32 := append_correct_iff (by decide)

/-- Eight bytes and eight more: four of them are written behind the
object. -/
theorem not_correct_eight :
    ¬ (AppendCall.plain [1, 2, 3, 4, 5, 6, 7, 8] [9, 10, 11, 12, 13, 14, 15, 16] 0 64
      (by decide)).Correct := by
  intro hc
  have hwrite := hc.inside (76, 8) (by
    rw [AppendCall.after_of_le (by decide) (by decide)]
    decide) 4 (by decide)
  rcases hwrite with hin | hin
  · exact absurd hin.2 (by decide)
  · exact absurd hin.1 (by decide)

end GermanString

end CppEtudes
