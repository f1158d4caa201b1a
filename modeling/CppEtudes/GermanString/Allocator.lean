import CppEtudes.GermanString.Construct
import CppEtudes.GermanString.Model.Allocator
import Mathlib.Algebra.Order.BigOperators.Group.List
import Mathlib.Algebra.Order.Group.Nat
import Mathlib.Data.List.Forall2

/-!
# Strings that share an allocator

What `allocate` hands out lies beside everything that is in use
(`Allocated`): a page keeps its buffer, since it never has more bytes than
were reserved for it, and the buffers share no byte. So each string keeps
its bytes while others are built (`Holds.mono`), and `size` counts the
bytes of all areas.
-/

namespace CppEtudes

namespace GermanString

open Region (Separate)

variable {heap heap' : Heap} {a a' : ExternalAllocator} {n m addr grown x : ℕ}
variable {remaining : UInt64} {s : GermanString} {l : List UInt8} {ls : List (List UInt8)}

/-! ## Areas in use -/

namespace ExternalAllocator

/-- The bytes in use. -/
def areas (a : ExternalAllocator) : List Region :=
  a.mediumStringPages.map (fun page => ⟨page.data, page.size⟩) ++
    a.largeStrings.map fun str => ⟨str.data, str.size⟩

def Used (a : ExternalAllocator) (x : ℕ) : Prop := ∃ r ∈ a.areas, r.Has x

/-- The number of bytes in use. -/
def total (a : ExternalAllocator) : ℕ :=
  (a.mediumStringPages.map CharVector.size).sum + (a.largeStrings.map LargeString.size).sum

/-- **The pages** have the room that was reserved for them. -/
def Paged (a : ExternalAllocator) : Prop :=
  ∀ page ∈ a.mediumStringPages, page.size ≤ pageSize ∧ pageSize ≤ page.capacity

theorem used_page_iff {page : CharVector} {pages : List CharVector} {large : List LargeString} :
    Used ⟨page :: pages, large⟩ x ↔
      (⟨page.data, page.size⟩ : Region).Has x ∨ Used ⟨pages, large⟩ x :=
  List.exists_mem_cons_iff ..

theorem used_large_iff {str : LargeString} {pages : List CharVector} {large : List LargeString} :
    Used ⟨pages, str :: large⟩ x ↔
      (⟨str.data, str.size⟩ : Region).Has x ∨ Used ⟨pages, large⟩ x := by
  have hperm : (areas ⟨pages, str :: large⟩).Perm (⟨str.data, str.size⟩ :: areas ⟨pages, large⟩) :=
    List.perm_middle
  exact (exists_congr fun r => and_congr_left fun _ => hperm.mem_iff).trans
    (List.exists_mem_cons_iff ..)

/-- What is in use is in a buffer. -/
theorem Used.exists_buffer (h : a.Used x) (hpaged : a.Paged) : ∃ b ∈ a.buffers, b.Has x := by
  obtain ⟨r, hr, hx⟩ := h
  rcases List.mem_append.1 hr with hr | hr
  · obtain ⟨page, hpage, rfl⟩ := List.mem_map.1 hr
    refine ⟨_, List.mem_append_left _ (List.mem_map_of_mem hpage), hx.1, ?_⟩
    have hbound := hpaged page hpage
    have hlt := hx.2
    dsimp only at hlt ⊢
    omega
  · obtain ⟨str, hstr, rfl⟩ := List.mem_map.1 hr
    refine ⟨_, List.mem_append_right _ (List.mem_map_of_mem hstr), hx.1, ?_⟩
    have hlt := hx.2
    dsimp only at hlt ⊢
    omega

end ExternalAllocator

open ExternalAllocator

/-- **An area of `m` bytes is handed out.** -/
structure Allocated (a : ExternalAllocator) (heap : Heap) (m : ℕ) (remaining : UInt64)
    (a' : ExternalAllocator) (heap' : Heap) : Prop where
  paged : a'.Paged
  used : ∀ x, a'.Used x ↔ (⟨remaining.toNat, m⟩ : Region).Has x ∨ a.Used x
  fresh : ∀ x, a.Used x → ¬ (⟨remaining.toNat, m⟩ : Region).Has x
  same : ∀ x, a.Used x → heap' x = heap x
  total : a'.total = a.total + m

theorem memcpy_of_not_has {bs : List UInt8} (h : ¬ (⟨addr, bs.length⟩ : Region).Has x) :
    heap.memcpy addr bs x = heap x := by
  refine Heap.memcpy_of_apart ?_
  by_contra hin
  rw [not_or, Nat.not_lt, Nat.not_le] at hin
  exact h hin

/-! ## Handing out areas -/

/-- **The page at the back** has room for `n` bytes; to take a new one
does not change what is in use. -/
structure BackPage (a : ExternalAllocator) (n : ℕ) (page : CharVector) (pages : List CharVector) :
    Prop where
  room : page.size + n ≤ pageSize
  paged : Paged ⟨page :: pages, a.largeStrings⟩
  used : ∀ x, Used ⟨page :: pages, a.largeStrings⟩ x ↔ a.Used x
  total : ExternalAllocator.total ⟨page :: pages, a.largeStrings⟩ = a.total

theorem backPage_new (hpaged : a.Paged) (hn : n ≤ pageSize) (addr : ℕ) :
    BackPage a n ⟨addr, 0, pageSize⟩ a.mediumStringPages where
  room := by rwa [Nat.zero_add]
  paged page hpage := by
    rcases List.mem_cons.1 hpage with rfl | hpage
    · exact ⟨Nat.zero_le _, Nat.le_refl _⟩
    · exact hpaged page hpage
  used x := used_page_iff.trans (or_iff_right fun hx => absurd hx.2 (Nat.not_lt.2 hx.1))
  total := by
    rw [ExternalAllocator.total, List.map_cons, List.sum_cons, Nat.zero_add]
    rfl

theorem reserve_empty (heap : Heap) (addr : ℕ) :
    CharVector.empty.reserve heap pageSize addr = (⟨addr, 0, pageSize⟩, heap) := by
  have hnil : heap.memcpy addr [] = heap :=
    funext fun x => Heap.memcpy_of_apart (Nat.lt_or_ge ..)
  rw [CharVector.reserve, if_pos (by decide), CharVector.reallocate]
  exact congrArg _ hnil

theorem backPage_spec (hpaged : a.Paged) (hn : n ≤ pageSize) (heap : Heap) (addr : ℕ) :
    ∃ page pages, a.backPage heap n addr = ((page, pages), heap) ∧ BackPage a n page pages := by
  have hnew := backPage_new hpaged hn addr
  unfold backPage
  rw [reserve_empty]
  rcases hpages : a.mediumStringPages with - | ⟨page, pages⟩
  · exact ⟨_, _, rfl, hpages ▸ hnew⟩
  · dsimp only
    split_ifs with hfull
    · exact ⟨_, _, rfl, hpages ▸ hnew⟩
    · have ha : ⟨page :: pages, a.largeStrings⟩ = a := by rw [← hpages]
      exact ⟨page, pages, rfl, Nat.not_lt.1 hfull, ha ▸ hpaged, fun _ => by rw [ha], by rw [ha]⟩

theorem allocate_of_le (hn : n ≤ 12) : a.allocate heap n addr grown = (0, a, heap) := if_pos hn

theorem allocate_medium (hn : 12 < n) (hmedium : n - 4 ≤ 512) {page : CharVector}
    {pages : List CharVector} (hback : a.backPage heap (n - 4) addr = ((page, pages), heap))
    (hroom : page.size + (n - 4) ≤ page.capacity) :
    a.allocate heap n addr grown = (UInt64.ofNat (page.data + page.size),
      ⟨{ page with size := page.size + (n - 4) } :: pages, a.largeStrings⟩,
      heap.memcpy (page.data + page.size) (List.replicate (n - 4) 0)) := by
  have hresize : page.resize heap (page.size + (n - 4)) grown =
      ({ page with size := page.size + (n - 4) },
        heap.memcpy (page.data + page.size) (List.replicate (n - 4) 0)) := by
    rw [CharVector.resize, if_neg (Nat.not_lt.2 hroom)]
    dsimp only
    rw [Nat.add_sub_cancel_left]
  unfold allocate
  rw [if_neg (show ¬ n ≤ inlineMaxLength from Nat.not_le.2 hn)]
  dsimp only
  rw [if_pos (show n - prefixLength ≤ mediumStringMaxSize from hmedium)]
  rw [show n - prefixLength = n - 4 from rfl, hback]
  dsimp only
  rw [hresize]
  dsimp only
  rw [← Nat.add_assoc, Nat.add_sub_cancel]

theorem allocate_large (hn : 12 < n) (hlarge : 512 < n - 4) :
    a.allocate heap n addr grown = (UInt64.ofNat addr,
      ⟨a.mediumStringPages, ⟨addr, n - 4⟩ :: a.largeStrings⟩,
      heap.memcpy addr (List.replicate (n - 4 + 1) 0)) := by
  unfold allocate
  rw [if_neg (show ¬ n ≤ inlineMaxLength from Nat.not_le.2 hn)]
  dsimp only
  rw [if_neg (show ¬ n - prefixLength ≤ mediumStringMaxSize from Nat.not_le.2 hlarge)]
  rfl

theorem toNat_ofNat_of_has {r : Region} {bs : List Region} (hsep : Separate (2 ^ 64) (r :: bs))
    (hx : r.Has x) : (UInt64.ofNat x).toNat = x :=
  UInt64.toNat_ofNat_of_lt' (Nat.lt_of_lt_of_le hx.2 (hsep.bound r List.mem_cons_self))

/-- **A large string** has a buffer of its own. -/
theorem allocated_large (hpaged : a.Paged) (hsep : Separate (2 ^ 64) (⟨addr, m + 1⟩ :: a.buffers)) :
    Allocated a heap m (.ofNat addr) ⟨a.mediumStringPages, ⟨addr, m⟩ :: a.largeStrings⟩
      (heap.memcpy addr (List.replicate (m + 1) 0)) := by
  have haddr := toNat_ofNat_of_has hsep ⟨Nat.le_refl addr, Nat.lt_add_of_pos_right m.succ_pos⟩
  have hapart (x : ℕ) (hx : a.Used x) : ¬ (⟨addr, m + 1⟩ : Region).Has x := by
    obtain ⟨b, hb, hx⟩ := hx.exists_buffer hpaged
    exact hsep.not_has hb hx
  refine ⟨hpaged, fun x => ?_, fun x hx hhas => ?_, fun x hx => ?_, ?_⟩
  · rw [used_large_iff, haddr]
  · rw [haddr] at hhas
    exact hapart x hx ⟨hhas.1, Nat.lt_succ_of_lt hhas.2⟩
  · refine memcpy_of_not_has ?_
    rw [List.length_replicate]
    exact hapart x hx
  · rw [ExternalAllocator.total, List.map_cons, List.sum_cons, ExternalAllocator.total]
    dsimp only
    omega

/-- **A medium string** follows what the page at the back has. -/
theorem allocated_medium {page : CharVector} {pages : List CharVector}
    (hback : BackPage a m page pages) (hm : 0 < m) (hsep : Separate (2 ^ 64)
      (buffers ⟨{ page with size := page.size + m } :: pages, a.largeStrings⟩)) :
    Allocated a heap m (.ofNat (page.data + page.size))
      ⟨{ page with size := page.size + m } :: pages, a.largeStrings⟩
      (heap.memcpy (page.data + page.size) (List.replicate m 0)) := by
  have hroom := hback.room
  have hcapacity := (hback.paged page List.mem_cons_self).2
  have hinside {x : ℕ} (hhas : (⟨page.data + page.size, m⟩ : Region).Has x) :
      (⟨page.data, page.capacity⟩ : Region).Has x := by
    dsimp only [Region.Has] at hhas ⊢
    omega
  have hstart := toNat_ofNat_of_has hsep
    (hinside ⟨Nat.le_refl (page.data + page.size), Nat.lt_add_of_pos_right hm⟩)
  have hfresh (x : ℕ) (hx : a.Used x) : ¬ (⟨page.data + page.size, m⟩ : Region).Has x := by
    intro hhas
    rcases used_page_iff.1 ((hback.used x).2 hx) with hx | hx
    · exact absurd hx.2 (Nat.not_lt.2 hhas.1)
    · -- the other buffers are apart from that of the page
      obtain ⟨b, hb, hx⟩ :=
        hx.exists_buffer fun p hp => hback.paged p (List.mem_cons_of_mem _ hp)
      exact hsep.not_has hb hx (hinside hhas)
  refine ⟨?_, fun x => ?_, fun x hx => ?_, fun x hx => ?_, ?_⟩
  · intro p hp
    rcases List.mem_cons.1 hp with rfl | hp
    · exact ⟨hroom, hcapacity⟩
    · exact hback.paged p (List.mem_cons_of_mem _ hp)
  · rw [used_page_iff, ← hback.used, used_page_iff, ← or_assoc, hstart]
    refine or_congr_left ?_
    dsimp only [Region.Has]
    omega
  · rw [hstart]
    exact hfresh x hx
  · refine memcpy_of_not_has ?_
    rw [List.length_replicate]
    exact hfresh x hx
  · rw [← hback.total, ExternalAllocator.total, ExternalAllocator.total, List.map_cons,
      List.map_cons, List.sum_cons, List.sum_cons]
    dsimp only
    omega

/-- **What `allocate` hands out** for a long string. -/
theorem allocated (hpaged : a.Paged) (hn : 12 < n)
    (hsep : Separate (2 ^ 64) (a.allocate heap n addr grown).2.1.buffers) :
    Allocated a heap (n - 4) (a.allocate heap n addr grown).1
      (a.allocate heap n addr grown).2.1 (a.allocate heap n addr grown).2.2 := by
  rcases Nat.lt_or_ge 512 (n - 4) with hlarge | hmedium
  · rw [allocate_large hn hlarge] at hsep ⊢
    exact allocated_large hpaged (hsep.perm List.perm_middle)
  · obtain ⟨page, pages, heq, hback⟩ :=
      backPage_spec hpaged (Nat.le_trans hmedium (by decide)) heap addr
    have hcapacity := (hback.paged page List.mem_cons_self).2
    rw [allocate_medium hn hmedium heq (hback.room.trans hcapacity)] at hsep ⊢
    exact allocated_medium hback (by omega) hsep

/-! ## Strings in use -/

/-- **A string and its bytes**, with its area in use. -/
structure Holds (a : ExternalAllocator) (heap : Heap) (s : GermanString) (l : List UInt8) :
    Prop where
  len : s.len = l.length
  string : toString heap s = l
  used : 12 < l.length → ∀ i < l.length - 4, a.Used (s.ptr + i)

/-- **A string keeps its bytes** while the memory in use does. -/
theorem Holds.mono (h : Holds a heap s l) (hused : ∀ x, a.Used x → a'.Used x)
    (hsame : ∀ x, a.Used x → heap' x = heap x) : Holds a' heap' s l := by
  refine ⟨h.len, ?_, fun hlong i hi => hused _ (h.used hlong i hi)⟩
  have hstring := h.string
  rcases Nat.lt_or_ge 12 s.len with hlong | hshort
  · have harea : bytes (heap'.chars s.ptr) (s.len - 4) = bytes (heap.chars s.ptr) (s.len - 4) := by
      refine bytes_congr fun i hi => hsame _ ?_
      rw [h.len] at hlong hi
      exact h.used hlong i hi
    rw [toString_of_long (by omega)] at hstring ⊢
    rw [harea, hstring]
  · rw [toString_of_inline hshort] at hstring ⊢
    exact hstring

/-- **A string is built from `l`**: it has the bytes itself, or they are
written to `remaining` behind the prefix. -/
structure Built (heap : Heap) (remaining : UInt64) (l : List UInt8) (s : GermanString)
    (heap' : Heap) : Prop where
  len : s.len = l.length
  inline : l.length ≤ 12 → heap' = heap ∧ bytes s.str l.length = l
  long : 12 < l.length →
    heap' = heap.memcpy remaining.toNat (l.drop 4) ∧ bytes s.str 4 = l.take 4 ∧
      s.ptr = remaining.toNat

theorem built_new (hlt : l.length < 2 ^ 32) (heap : Heap) (rep : Fin 12 → UInt8)
    (remaining : UInt64) :
    Built heap remaining l (new heap rep l remaining).1 (new heap rep l remaining).2 := by
  refine ⟨by rw [len_new, Nat.mod_eq_of_lt hlt], fun hshort => ⟨?_, ?_⟩, fun hlong => ⟨?_, ?_, ?_⟩⟩
  · rw [new_of_le hshort]
  · exact bytes_eq fun i hi => str_new_of_le hshort hi
  · rw [new_of_lt hlong]
  · have hfour : (l.take 4).length = 4 := by
      rw [List.length_take]
      omega
    have hprefix : bytes (new heap rep l remaining).1.str (l.take 4).length = l.take 4 := by
      refine bytes_eq fun i hi => ?_
      rw [str_new_of_lt hlong (hi.trans_eq hfour), List.getElem_take]
    rwa [hfour] at hprefix
  · exact ptr_new hlong

theorem copy_of_lt (h : 12 < s.len) :
    GermanString.copy heap s remaining = (⟨s.len, setPtr s.rep remaining.toNat⟩,
      heap.memcpy remaining.toNat (bytes (heap.chars s.ptr) (s.len - 4))) :=
  if_neg (Nat.not_le.2 h)

theorem built_copy (h : Holds a heap s l) (remaining : UInt64) :
    Built heap remaining l (GermanString.copy heap s remaining).1
      (GermanString.copy heap s remaining).2 := by
  have hlen := h.len
  have hstring := h.string
  rcases Nat.lt_or_ge 12 s.len with hlong | hshort
  · rw [toString_of_long (by omega)] at hstring
    rw [copy_of_lt hlong]
    refine ⟨hlen, fun _ => by omega, fun _ => ⟨?_, ?_, ?_⟩⟩
    · rw [← hstring, List.drop_left' length_bytes]
    · rw [← hstring, List.take_left' length_bytes]
      refine bytes_congr fun i hi => ?_
      rw [str, str, dif_pos (by omega), dif_pos (by omega)]
      exact setPtr_of_lt hi
    · refine ptr_eq remaining.toNat_lt fun i j hj => ?_
      dsimp only
      rw [setPtr_of_le (by omega), hj, Nat.add_sub_cancel]
  · rw [toString_of_inline hshort, hlen] at hstring
    rw [GermanString.copy, if_pos (show s.len ≤ inlineMaxLength from hshort)]
    exact ⟨hlen, fun _ => ⟨rfl, hstring⟩, fun _ => by omega⟩

/-- **A string in an area that was handed out.** -/
theorem Built.holds (h : Built heap remaining l s heap') (hlong : 12 < l.length)
    (hused : ∀ x, (⟨remaining.toNat, l.length - 4⟩ : Region).Has x → a.Used x) :
    Holds a heap' s l := by
  have hlen := h.len
  obtain ⟨hheap, hstr, hptr⟩ := h.long hlong
  have harea : bytes (heap'.chars remaining.toNat) (l.drop 4).length = l.drop 4 := by
    rw [hheap]
    exact Heap.bytes_memcpy
  rw [List.length_drop] at harea
  refine ⟨hlen, ?_, fun _ i hi => hused _ ?_⟩
  · rw [toString_of_long (by omega), hstr, hptr, hlen, harea, List.take_append_drop]
  · rw [hptr]
    exact ⟨Nat.le_add_right .., Nat.add_lt_add_left hi _⟩

theorem Built.holds_of_le (h : Built heap remaining l s heap') (hshort : l.length ≤ 12) :
    Holds a heap' s l := by
  have hlen := h.len
  refine ⟨hlen, ?_, fun hlong => absurd hshort (Nat.not_le.2 hlong)⟩
  rw [toString_of_inline (by omega), hlen, (h.inline hshort).2]

/-! ## Sequences of strings -/

/-- The bytes of a string, given those of the earlier ones. -/
def Source.content (ls : List (List UInt8)) : Source → Option (List UInt8)
  | .bytes str => some str
  | .copy i => ls[i]?

/-- The bytes of each string of a sequence. -/
def contents (builds : List Build) : Option (List (List UInt8)) :=
  builds.foldlM (fun ls b => (b.source.content ls).map fun l => ls ++ [l]) []

/-- The bytes that do not fit into the objects. -/
def areaSum (ls : List (List UInt8)) : ℕ :=
  ((ls.filter fun l => 12 < l.length).map fun l => l.length - 4).sum

/-- **The strings and their allocator.** -/
structure Inv (st : Strings) (ls : List (List UInt8)) : Prop where
  paged : st.allocator.Paged
  strings : List.Forall₂ (Holds st.allocator st.heap) st.strings ls
  total : st.allocator.total = areaSum ls

theorem areaSum_concat (ls : List (List UInt8)) (l : List UInt8) :
    areaSum (ls ++ [l]) = areaSum ls + if 12 < l.length then l.length - 4 else 0 := by
  rw [areaSum, List.filter_append, List.map_append, List.sum_append, ← areaSum]
  split_ifs with h
  · simp [h]
  · simp [h]

theorem inv_start (heap : Heap) : Inv (.start heap) [] := ⟨nofun, .nil, rfl⟩

variable {st st' : Strings} {b : Build}

/-- **A string that is built in its own area** joins the others. -/
theorem Inv.add (h : Inv st ls)
    (hsep : Separate (2 ^ 64) (st.allocator.allocate st.heap l.length addr grown).2.1.buffers)
    (hbuilt : Built (st.allocator.allocate st.heap l.length addr grown).2.2
      (st.allocator.allocate st.heap l.length addr grown).1 l s heap') :
    Inv ⟨(st.allocator.allocate st.heap l.length addr grown).2.1, heap', st.strings ++ [s]⟩
      (ls ++ [l]) := by
  rcases Nat.lt_or_ge 12 l.length with hlong | hshort
  · have hall := allocated h.paged hlong hsep
    have hnew := hbuilt.holds hlong fun x hx => (hall.used x).2 (.inl hx)
    have hsame (x : ℕ) (hx : st.allocator.Used x) : heap' x = st.heap x := by
      rw [(hbuilt.long hlong).1, memcpy_of_not_has, hall.same x hx]
      rw [List.length_drop]
      exact hall.fresh x hx
    refine ⟨hall.paged, ?_, ?_⟩
    · have hold := h.strings.imp fun s l hs => hs.mono (fun x hx => (hall.used x).2 (.inr hx)) hsame
      exact List.rel_append hold (.cons hnew .nil)
    · rw [areaSum_concat, if_pos hlong, ← h.total]
      exact hall.total
  · have hheap := (hbuilt.inline hshort).1
    rw [allocate_of_le hshort] at hheap ⊢
    refine ⟨h.paged, List.rel_append ?_ (.cons (hbuilt.holds_of_le hshort) .nil), ?_⟩
    · rw [hheap]
      exact h.strings
    · rw [areaSum_concat, if_neg (Nat.not_lt.2 hshort), Nat.add_zero]
      exact h.total

/-- What is in use keeps its bytes when an area is handed out. -/
theorem allocate_same (hpaged : a.Paged)
    (hsep : Separate (2 ^ 64) (a.allocate heap n addr grown).2.1.buffers) (hx : a.Used x) :
    (a.allocate heap n addr grown).2.2 x = heap x := by
  rcases Nat.lt_or_ge 12 n with hn | hn
  · exact (allocated hpaged hn hsep).same x hx
  · rw [allocate_of_le hn]

theorem Inv.getElem? (h : Inv st ls) {i : ℕ} (hl : ls[i]? = some l) :
    ∃ s, st.strings[i]? = some s ∧ Holds st.allocator st.heap s l := by
  obtain ⟨hlength, hholds⟩ := List.forall₂_iff_get.1 h.strings
  obtain ⟨hi, rfl⟩ := List.getElem?_eq_some_iff.1 hl
  have hi' : i < st.strings.length := by rwa [hlength]
  exact ⟨_, List.getElem?_eq_getElem hi', hholds i hi' hi⟩

/-- **One more string.** -/
theorem Inv.build (h : Inv st ls) (hl : b.source.content ls = some l) (hlt : l.length < 2 ^ 32)
    (hsep : ∀ st', st.build b = some st' → Separate (2 ^ 64) st'.allocator.buffers) :
    ∃ st', st.build b = some st' ∧ Inv st' (ls ++ [l]) := by
  unfold Strings.build at hsep ⊢
  rcases hsource : b.source with str | i
  · rw [hsource] at hl hsep
    obtain rfl : str = l := Option.some.inj hl
    exact ⟨_, rfl, h.add (hsep _ rfl) (built_new hlt ..)⟩
  · rw [hsource] at hl hsep
    obtain ⟨rhs, hrhs, hholds⟩ := h.getElem? hl
    dsimp only at hsep ⊢
    rw [hrhs, Option.bind_eq_bind, Option.bind_some, hholds.len] at hsep ⊢
    have hsep := hsep _ rfl
    -- the bytes are copied after the area is there
    have hholds := hholds.mono (fun _ hx => hx) fun x hx => allocate_same h.paged hsep hx
    exact ⟨_, rfl, h.add hsep (built_copy hholds _)⟩

theorem contents_concat {builds : List Build} (h : contents (builds ++ [b]) = some ls) :
    ∃ ls₀ l, contents builds = some ls₀ ∧ b.source.content ls₀ = some l ∧ ls = ls₀ ++ [l] := by
  rw [contents, List.foldlM_append] at h
  obtain ⟨ls₀, h₀, h⟩ := Option.bind_eq_some_iff.1 h
  simp only [List.foldlM_cons, List.foldlM_nil, bind_pure] at h
  obtain ⟨l, hl, rfl⟩ := Option.map_eq_some_iff.1 h
  exact ⟨ls₀, l, h₀, hl, rfl⟩

/-- **A sequence of strings.** -/
theorem inv_run {builds : List Build} (hls : contents builds = some ls)
    (hlt : ∀ l ∈ ls, l.length < 2 ^ 32)
    (hsep : ∀ k st, (Strings.start heap).run (builds.take k) = some st →
      Separate (2 ^ 64) st.allocator.buffers) :
    ∃ st, (Strings.start heap).run builds = some st ∧ Inv st ls := by
  -- the strings up to the last one are built in the same way
  induction builds using List.reverseRecOn generalizing ls with
  | nil =>
    obtain rfl : [] = ls := Option.some.inj hls
    exact ⟨_, rfl, inv_start heap⟩
  | append_singleton builds b ih =>
    obtain ⟨ls₀, l, h₀, hl, rfl⟩ := contents_concat hls
    have htake (k : ℕ) (st : Strings) (hrun : (Strings.start heap).run (builds.take k) = some st) :
        Separate (2 ^ 64) st.allocator.buffers := by
      refine hsep (min k builds.length) st ?_
      rwa [List.take_append_of_le_length (Nat.min_le_right ..), ← List.take_eq_take_min]
    obtain ⟨st, hrun, hinv⟩ := ih h₀ (fun l hl => hlt l (List.mem_append_left _ hl)) htake
    have hrun' : (Strings.start heap).run (builds ++ [b]) = st.build b := by
      rw [Strings.run, List.foldlM_append, ← Strings.run, hrun]
      exact bind_pure (st.build b)
    rw [hrun']
    refine hinv.build hl (hlt l List.mem_concat_self) fun st' hst' => ?_
    refine hsep (builds ++ [b]).length st' ?_
    rw [List.take_length, hrun', hst']

/-- Without the wrap of `size_t`. -/
theorem size_eq_total (hpaged : a.Paged) (hsep : Separate (2 ^ 64) a.buffers) :
    a.size = a.total := by
  have hsum := hsep.sum_size_lt (by decide)
  refine Nat.mod_eq_of_lt (Nat.lt_of_le_of_lt ?_ hsum)
  rw [buffers, List.map_append, List.sum_append, List.map_map, List.map_map]
  refine Nat.add_le_add (List.sum_le_sum fun page hpage => ?_) (List.sum_le_sum fun str _ => ?_)
  · have hpage := hpaged page hpage
    exact hpage.1.trans hpage.2
  · exact Nat.le_succ _

theorem length_contents {builds : List Build} (h : contents builds = some ls) :
    ls.length = builds.length := by
  induction builds using List.reverseRecOn generalizing ls with
  | nil =>
    obtain rfl : [] = ls := Option.some.inj h
    rfl
  | append_singleton builds b ih =>
    obtain ⟨ls₀, l, h₀, -, rfl⟩ := contents_concat h
    rw [List.length_append, List.length_append, ih h₀]
    rfl

theorem contents_take {builds : List Build} (h : contents builds = some ls) (k : ℕ) :
    contents (builds.take k) = some (ls.take k) := by
  induction builds using List.reverseRecOn generalizing ls with
  | nil =>
    obtain rfl : [] = ls := Option.some.inj h
    rw [List.take_nil, List.take_nil, h]
  | append_singleton builds b ih =>
    have hlength := length_contents h
    rcases Nat.lt_or_ge builds.length k with hk | hk
    · have hk' : (builds ++ [b]).length ≤ k := by rwa [List.length_append]
      rw [List.take_of_length_le hk', List.take_of_length_le (hlength.trans_le hk'), h]
    · obtain ⟨ls₀, l, h₀, -, rfl⟩ := contents_concat h
      rw [List.take_append_of_le_length hk, List.take_append_of_le_length, ih h₀]
      rwa [length_contents h₀]

/-- **Strings that share an allocator**, of lengths below 2³²: after each
step every string converts back to its own bytes, and `size` counts those
that do not fit into the objects. The buffers that are in use share no
byte, which is what `operator new` is for. -/
theorem run_converts {builds : List Build} (hls : contents builds = some ls)
    (hlt : ∀ l ∈ ls, l.length < 2 ^ 32)
    (hsep : ∀ k st, (Strings.start heap).run (builds.take k) = some st →
      Separate (2 ^ 64) st.allocator.buffers) (k : ℕ) :
    ∃ st, (Strings.start heap).run (builds.take k) = some st ∧
      st.strings.map (toString st.heap) = ls.take k ∧ st.allocator.size = areaSum (ls.take k) := by
  obtain ⟨st, hrun, hinv⟩ := inv_run (contents_take hls k)
    (fun l hl => hlt l (List.mem_of_mem_take hl)) fun j st hst => by
      rw [List.take_take] at hst
      exact hsep _ st hst
  refine ⟨st, hrun, ?_, ?_⟩
  · rw [← List.forall₂_eq_eq_eq, List.forall₂_map_left_iff]
    exact hinv.strings.imp fun _ _ h => h.string
  · rw [size_eq_total hinv.paged (hsep k st hrun), hinv.total]

/-- Three bytes, twenty bytes on a page, and a copy of those. -/
def threeBuilds : List Build :=
  [⟨.bytes [1, 2, 3], fun _ => 7, 0, 0⟩, ⟨.bytes (List.replicate 20 5), fun _ => 7, 4096, 0⟩,
    ⟨.copy 1, fun _ => 7, 0, 0⟩]

theorem separate_singleton {r : Region} (hpos : 0 < r.start) (hbound : r.start + r.size ≤ 2 ^ 64) :
    Separate (2 ^ 64) [r] :=
  ⟨List.forall_mem_singleton.2 hpos, List.forall_mem_singleton.2 hbound,
    List.pairwise_singleton ..⟩

theorem run_converts_threeBuilds :
    ∃ st, (Strings.start fun _ => 0).run threeBuilds = some st ∧
      st.strings.map (toString st.heap) = [[1, 2, 3], List.replicate 20 5, List.replicate 20 5] ∧
      st.allocator.size = 32 := by
  have hls : contents threeBuilds =
    some [[1, 2, 3], List.replicate 20 5, List.replicate 20 5] := rfl
  refine run_converts hls (by decide) (fun k st hst => ?_) 3
  have hpage : Separate (2 ^ 64) [⟨4096, 4096⟩] := separate_singleton (by decide) (by decide)
  rcases k with - | - | - | k
  · obtain rfl := Option.some.inj hst
    exact ⟨nofun, nofun, .nil⟩
  · obtain rfl := Option.some.inj hst
    exact ⟨nofun, nofun, .nil⟩
  · obtain rfl := Option.some.inj hst
    exact hpage
  · rw [List.take_of_length_le (Nat.le_add_left 3 k)] at hst
    obtain rfl := Option.some.inj hst
    exact hpage

/-- A large string as the only one. -/
theorem run_singleton (hl : 516 < l.length) {rep : Fin 12 → UInt8} :
    (Strings.start heap).run [⟨.bytes l, rep, addr, grown⟩] =
      some ⟨⟨[], [⟨addr, l.length - 4⟩]⟩,
        (new (heap.memcpy addr (List.replicate (l.length - 4 + 1) 0)) rep l (.ofNat addr)).2,
        [(new (heap.memcpy addr (List.replicate (l.length - 4 + 1) 0)) rep l
          (.ofNat addr)).1]⟩ := by
  rw [Strings.run, List.foldlM_cons, Strings.build]
  dsimp only
  rw [allocate_large (by omega) (by omega)]
  rfl

/-- **The length of 2³² bytes** is 0. -/
theorem toString_new_of_wrap (hl : l.length = 2 ^ 32) {rep : Fin 12 → UInt8} :
    toString heap' (new heap rep l remaining).1 = [] := by
  have hlen : (new heap rep l remaining).1.len = 0 := by rw [len_new, hl, Nat.mod_self]
  rw [toString_of_inline (by omega), hlen]
  rfl

/-- 2³² zero bytes. -/
def longBuild : Build := ⟨.bytes (List.replicate 4294967296 0), fun _ => 0, 4096, 0⟩

theorem not_converts_longBuild :
    contents [longBuild] = some [List.replicate 4294967296 0] ∧
      (∀ k st, (Strings.start fun _ => 0).run ([longBuild].take k) = some st →
        Separate (2 ^ 64) st.allocator.buffers) ∧
      ¬ ∃ st, (Strings.start fun _ => 0).run [longBuild] = some st ∧
        st.strings.map (toString st.heap) = [List.replicate 4294967296 0] := by
  rw [longBuild]
  obtain ⟨l, hl⟩ : ∃ l : List UInt8, l = List.replicate 4294967296 0 := ⟨_, rfl⟩
  have hlength : l.length = 2 ^ 32 := by
    rw [hl, List.length_replicate]
    decide
  rw [← hl]
  refine ⟨rfl, fun k st hst => ?_, ?_⟩
  · rcases k with - | k
    · obtain rfl := Option.some.inj hst
      exact ⟨nofun, nofun, .nil⟩
    · rw [List.take_of_length_le (Nat.le_add_left 1 k), run_singleton (by omega)] at hst
      obtain rfl := Option.some.inj hst
      refine separate_singleton (Nat.succ_pos _) ?_
      dsimp only
      omega
  · rintro ⟨st, hst, hstring⟩
    rw [run_singleton (by omega)] at hst
    obtain rfl := Option.some.inj hst
    dsimp only at hstring
    rw [List.map_singleton, toString_new_of_wrap hlength] at hstring
    have hnil : [] = l := List.head_eq_of_cons_eq hstring
    rw [← hnil] at hlength
    exact absurd hlength (by decide)

end GermanString

end CppEtudes
