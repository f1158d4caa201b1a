import Mathlib.Algebra.Ring.Nat
import Mathlib.Tactic.Common

/-!
# Self-delimiting codes

A code is self-delimiting on a set of values if a code word can be cut
off the front of any text in one way only. Words of one width are, and so
is a text behind its length. A sequence of code words whose number is
known can be read back.
-/

namespace CppEtudes

/-- **A code word ends by itself**, whatever follows it. -/
def SelfDelimiting {α β : Type} (P : α → Prop) (enc : α → List β) : Prop :=
  ∀ ⦃a b : α⦄, P a → P b → ∀ ⦃s t : List β⦄, enc a ++ s = enc b ++ t → a = b ∧ s = t

namespace SelfDelimiting

variable {α β : Type} {P : α → Prop} {enc : α → List β}

theorem of_width {w : ℕ} (hlen : ∀ a, (enc a).length = w)
    (hinj : ∀ ⦃a b⦄, P a → P b → enc a = enc b → a = b) : SelfDelimiting P enc := by
  intro a b ha hb s t h
  obtain ⟨henc, hst⟩ := List.append_inj h ((hlen a).trans (hlen b).symm)
  exact ⟨hinj ha hb henc, hst⟩

/-- **A length in front.** -/
theorem lengthPrefixed {P : ℕ → Prop} {enc : ℕ → List β} (h : SelfDelimiting P enc) :
    SelfDelimiting (fun r : List β => P r.length) fun r => enc r.length ++ r := by
  intro a b ha hb s t heq
  rw [List.append_assoc, List.append_assoc] at heq
  obtain ⟨hlen, hrest⟩ := h ha hb heq
  exact List.append_inj hrest hlen

/-- **Sequences of one length.** -/
theorem flatMap_inj (h : SelfDelimiting P enc) {as bs : List α} (hlen : as.length = bs.length)
    (has : ∀ a ∈ as, P a) (hbs : ∀ b ∈ bs, P b) (heq : as.flatMap enc = bs.flatMap enc) :
    as = bs := by
  induction as generalizing bs with
  | nil => exact (List.length_eq_zero_iff.1 hlen.symm).symm
  | cons a as ih =>
    obtain ⟨b, bs, rfl⟩ := List.exists_cons_of_length_eq_add_one hlen.symm
    rw [List.forall_mem_cons] at has hbs
    rw [List.flatMap_cons, List.flatMap_cons] at heq
    obtain ⟨rfl, hrest⟩ := h has.1 hbs.1 heq
    rw [ih (Nat.succ.inj hlen) has.2 hbs.2 hrest]

end SelfDelimiting

/-! ## Little endian -/

/-- The lowest `w` bytes of a number, the lowest first. -/
def littleEndian : ℕ → ℕ → List UInt8
  | 0, _ => []
  | w + 1, x => UInt8.ofNat x :: littleEndian w (x / 256)

theorem length_littleEndian (w x : ℕ) : (littleEndian w x).length = w := by
  induction w generalizing x with
  | zero => rfl
  | succ w ih => rw [littleEndian, List.length_cons, ih]

theorem littleEndian_inj {w x y : ℕ} (hx : x < 256 ^ w) (hy : y < 256 ^ w)
    (h : littleEndian w x = littleEndian w y) : x = y := by
  induction w generalizing x y with
  | zero => omega
  | succ w ih =>
    obtain ⟨hlow, hrest⟩ := List.cons.inj h
    have hmod : x % 256 = y % 256 := congrArg UInt8.toNat hlow
    rw [Nat.pow_succ] at hx hy
    have hdiv := ih (Nat.div_lt_of_lt_mul (by omega)) (Nat.div_lt_of_lt_mul (by omega)) hrest
    omega

/-- The number whose bytes these are, the lowest first. -/
def ofLittleEndian : List UInt8 → ℕ
  | [] => 0
  | b :: bs => b.toNat + 256 * ofLittleEndian bs

/-- A shift by whole bytes drops them. -/
theorem ofLittleEndian_shiftRight (bs : List UInt8) : ∀ k,
    ofLittleEndian bs >>> (8 * k) = ofLittleEndian (bs.drop k) := by
  induction bs with
  | nil => intro k; simp [ofLittleEndian]
  | cons b bs ih =>
    intro k
    have hb := b.toNat_lt
    cases k with
    | zero => rfl
    | succ k =>
      have hbyte : ofLittleEndian (b :: bs) >>> 8 = ofLittleEndian bs := by
        rw [ofLittleEndian, Nat.shiftRight_eq_div_pow]
        omega
      rw [Nat.mul_succ, Nat.add_comm, Nat.shiftRight_add, hbyte, ih, List.drop_succ_cons]

theorem ofLittleEndian_mod (bs : List UInt8) : ofLittleEndian bs % 256 = (bs.headD 0).toNat := by
  cases bs with
  | nil => rfl
  | cons b bs =>
    have hb := b.toNat_lt
    simp only [ofLittleEndian, List.headD_cons]
    omega

theorem selfDelimiting_littleEndian (w : ℕ) :
    SelfDelimiting (fun x : ℕ => x < 256 ^ w) (littleEndian w) :=
  .of_width (length_littleEndian w) fun _ _ => littleEndian_inj

end CppEtudes
