import Mathlib.Algebra.Ring.Nat
import Mathlib.Data.List.Nodup
import Mathlib.Data.Finset.Card
import Mathlib.Order.Interval.Finset.Nat

/-!
# Regions of memory

Regions of an address space that are in use at the same time share no
byte, and none of them is at the null address. So a region that joins the
others lies beside what they hold, and all of them together are smaller
than the address space.
-/

namespace CppEtudes

/-- Some bytes of an address space. -/
structure Region where
  start : ℕ
  size : ℕ

namespace Region

/-- The address `x` is one of the region. -/
def Has (b : Region) (x : ℕ) : Prop := b.start ≤ x ∧ x < b.start + b.size

/-- **Regions in use together**, in an address space of `limit` bytes. -/
structure Separate (limit : ℕ) (bs : List Region) : Prop where
  pos : ∀ b ∈ bs, 0 < b.start
  bound : ∀ b ∈ bs, b.start + b.size ≤ limit
  apart : bs.Pairwise fun b c => ∀ x, b.Has x → ¬ c.Has x

variable {limit x : ℕ} {b c : Region} {bs cs : List Region}

theorem Separate.perm (h : Separate limit bs) (hperm : bs.Perm cs) : Separate limit cs where
  pos c hc := h.pos c (hperm.mem_iff.2 hc)
  bound c hc := h.bound c (hperm.mem_iff.2 hc)
  apart := h.apart.perm hperm fun hbc x hc hb => hbc x hb hc

theorem Separate.not_has (h : Separate limit (b :: bs)) (hc : c ∈ bs) (hx : c.Has x) :
    ¬ b.Has x :=
  fun hb => (List.pairwise_cons.1 h.apart).1 c hc x hb hx

/-- **All regions together** are smaller than the address space. -/
theorem Separate.sum_size_lt (h : Separate limit bs) (hlimit : 0 < limit) :
    (bs.map size).sum < limit := by
  -- the addresses of the regions, one behind the other
  obtain ⟨l, hl⟩ : ∃ l, l = (bs.map fun b => List.range' b.start b.size).flatten := ⟨_, rfl⟩
  have hlength : l.length = (bs.map size).sum := by
    rw [hl, List.length_flatten, List.map_map]
    congr 1
    exact List.map_congr_left fun b _ => List.length_range'
  have hnodup : l.Nodup := by
    rw [hl, List.nodup_flatten]
    refine ⟨fun r hr => ?_, ?_⟩
    · obtain ⟨b, -, rfl⟩ := List.mem_map.1 hr
      exact List.nodup_range'
    · refine h.apart.map _ fun b c hbc x hb hc => ?_
      rw [List.mem_range'_1] at hb hc
      exact hbc x hb hc
  have hsubset : l.toFinset ⊆ Finset.Ico 1 limit := by
    intro x hx
    rw [List.mem_toFinset, hl, List.mem_flatten] at hx
    obtain ⟨r, hr, hx⟩ := hx
    obtain ⟨b, hb, rfl⟩ := List.mem_map.1 hr
    rw [List.mem_range'_1] at hx
    have hpos := h.pos b hb
    have hbound := h.bound b hb
    rw [Finset.mem_Ico]
    omega
  have hcard := Finset.card_le_card hsubset
  rw [List.toFinset_card_of_nodup hnodup, Nat.card_Ico, hlength] at hcard
  omega

end Region

end CppEtudes
