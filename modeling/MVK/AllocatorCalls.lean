import MVK.HeapCopy
import MVK.Lib.ObjectStore
import MVK.Malloc

/-!
# The heap as a store of objects

What a program sees of the C library's allocator, over any run of its calls.  A run may
also hold what the program does with its objects, byte by byte, and what the rest of the
kernel does outside the pages that are lent to the allocator.

The allocator is a store of objects as long as no size is within 32 bytes of the end of
the numbers.  `calloc` and `realloc` do not look at whether they got memory, so without it
they do not return, unless they have nothing to write.

## Main definitions

* `AllocatorCall`, `AllocatorStep` — what may happen, and what it does.
* `AllocatorCall.event` — what it is to the store of objects.
* `Represents` — the objects are those of the used blocks.

## Main results

* `allocator_refines_objects` — **the allocator is a store of objects.**
* `live_objects_in_place` — **where the objects of a program lie.**
* `heap_coalesces_when_empty` — **what is left when all objects are given up.**
* `allocator_returns` — **the calls return**, if the page source does.
-/

namespace MVK

open Allocator ObjectStore Transition Tiling

variable {σ : Type*} {lent : σ → Multiset PageRange → Prop} {src : PageSource σ}
  {s s' : Allocator σ} {b c : HeapBlock} {U : Multiset HeapBlock} {fuel : ℕ}

/-! ### What `calloc` and `realloc` do with the memory -/

/-- `calloc` returns when it gets memory, or has nothing to clear. -/
theorem Allocator.calloc_eq_some {nobj size ptr : Word} :
    s.calloc src fuel nobj size = some (ptr, s') ↔
      ∃ s₁, s.malloc src fuel (nobj * size) = some (ptr, s₁) ∧ (ptr = 0 → nobj * size = 0) ∧
        s' = { s₁ with mem := (liballocMemset ptr 0 (nobj * size) s₁.mem).2 } := by
  unfold Allocator.calloc
  dsimp only
  cases s.malloc src fuel (nobj * size) with
  | none => simp
  | some found =>
    obtain ⟨p, s₁⟩ := found
    constructor
    · intro hc
      by_cases hnull : WritesNull p (nobj * size)
      · exact absurd hc (by simp [hnull])
      · obtain ⟨rfl, rfl⟩ := Prod.mk.inj (Option.some.inj ((if_neg hnull).symm.trans hc))
        exact ⟨s₁, rfl, fun h0 => not_not.mp fun hne => hnull ⟨h0, hne⟩, rfl⟩
    · rintro ⟨s₂, hfound, hzero, rfl⟩
      obtain ⟨rfl, rfl⟩ := Prod.mk.inj (Option.some.inj hfound)
      exact if_neg fun hnull => hnull.2 (hzero hnull.1)

/-- `realloc` of an object to another size returns when it gets memory, or has nothing to
copy. -/
theorem Allocator.realloc_eq_some {p size ptr : Word} (hne : size ≠ 0) (hp : p ≠ 0) :
    s.realloc src fuel p size = some (ptr, s') ↔
      ∃ s₁, s.lock.unlock.malloc src fuel size = some (ptr, s₁) ∧
        (ptr = 0 → (if s.lock.get (p - tagSize) .size > size then size
          else s.lock.get (p - tagSize) .size) = 0) ∧
        Allocator.free { s₁ with mem := (liballocMemcpy ptr p
          (if s.lock.get (p - tagSize) .size > size then size
            else s.lock.get (p - tagSize) .size) s₁.mem).2 } src fuel p = some s' := by
  unfold Allocator.realloc
  rw [if_neg hne, if_neg hp]
  dsimp only
  cases s.lock.unlock.malloc src fuel size with
  | none => simp
  | some found =>
    obtain ⟨q, s₁⟩ := found
    constructor
    · intro hr
      by_cases hnull : WritesNull q (if s.lock.get (p - tagSize) .size > size then size
          else s.lock.get (p - tagSize) .size)
      · exact absurd ((if_pos hnull).symm.trans hr) (by simp)
      · replace hr := (if_neg hnull).symm.trans hr
        split at hr
        · cases hr
        · next s₂ hf =>
          obtain ⟨rfl, rfl⟩ := Prod.mk.inj (Option.some.inj hr)
          exact ⟨s₁, rfl, fun h0 => not_not.mp fun hn => hnull ⟨h0, hn⟩, hf⟩
    · rintro ⟨s₂, hfound, hzero, hf⟩
      obtain ⟨rfl, rfl⟩ := Prod.mk.inj (Option.some.inj hfound)
      dsimp only
      rw [if_neg fun hnull : WritesNull _ _ => hnull.2 (hzero hnull.1), hf]

/-- Of an empty object nothing is copied. -/
theorem smaller_zero (size : Word) : (if (0 : Word) > size then size else 0) = 0 :=
  if_neg BitVec.not_lt_zero

/-! ### Used blocks -/

/-- Where the bytes of a block are. -/
def HeapBlock.address (b : HeapBlock) : Word := b.tag + tagSize

/-- A block with room for its size. -/
structure HeapBlock.Roomy (b : HeapBlock) : Prop where
  room : b.size.toNat + 32 ≤ b.length
  start_pos : 0 < b.start
  fits : b.start + b.length ≤ 2 ^ 32

namespace HeapBlock.Roomy

theorem toNat_address (h : b.Roomy) (haddress : b.address ≠ 0) :
    b.address.toNat = b.start + 32 := by
  have hroom := h.room
  have hfits := h.fits
  have hstart : b.tag.toNat = b.start := rfl
  have htag : tagSize.toNat = 32 := rfl
  have hadd : b.address.toNat = (b.start + 32) % 2 ^ 32 := by
    rw [address, BitVec.toNat_add, hstart, htag]
  have hne : b.address.toNat ≠ 0 := fun h0 => haddress (BitVec.eq_of_toNat_eq h0)
  omega

/-- The bytes of the block lie behind its tag. -/
theorem interior (h : b.Roomy) (haddress : b.address ≠ 0) {i : ℕ} (hi : i < b.size.toNat) :
    (b.address + BitVec.ofNat 32 i).toNat = b.start + 32 + i ∧
      b.Interior (b.address + BitVec.ofNat 32 i) := by
  have hroom := h.room
  have hfits := h.fits
  have hat : (b.address + BitVec.ofNat 32 i).toNat = b.start + 32 + i := by
    rw [BitVec.toNat_add, h.toNat_address haddress, BitVec.toNat_ofNat]
    omega
  refine ⟨hat, ?_⟩
  rw [Interior, hat]
  omega

theorem interior_of_sub_lt (h : b.Roomy) (haddress : b.address ≠ 0) {a : Word}
    (ha : (a - b.address).toNat < b.size.toNat) : b.Interior a := by
  have hin := (h.interior haddress ha).2
  rwa [BitVec.ofNat_toNat, BitVec.setWidth_eq, BitVec.add_comm, BitVec.sub_add_cancel] at hin

end HeapBlock.Roomy

/-- How far a byte is behind the start. -/
theorem add_ofNat_sub {p : Word} {i : ℕ} (hi : i < 2 ^ 32) :
    (p + BitVec.ofNat 32 i - p).toNat = i := by
  have hsub : p + BitVec.ofNat 32 i - p = BitVec.ofNat 32 i := by
    rw [BitVec.add_comm, BitVec.add_sub_cancel]
  rw [hsub, BitVec.toNat_ofNat, Nat.mod_eq_of_lt hi]

namespace HeapHolds

theorem mem_initLists (s : Allocator σ) : s.initLists.mem = s.mem := by
  rw [initLists]
  split <;> rfl

theorem roomy (h : HeapHolds lent s U) (hb : b ∈ U) : b.Roomy := by
  obtain ⟨regions, bins, hok, rfl⟩ := h.ordered
  obtain ⟨hmem, hused⟩ := mem_usedOf.mp hb
  obtain ⟨row, hrow, hbrow⟩ := List.mem_flatten.mp hmem
  obtain ⟨R, -, rfl⟩ := List.mem_map.mp hrow
  have hblocks : b ∈ blocksOf (regions.map fun R => (R.toPageRange, R.blocks)) := by
    rw [blocksOf, List.map_map]
    exact hmem
  obtain ⟨hpos, hfits⟩ := hok.laid.start_pos hblocks
  exact ⟨(R.sound b hbrow).room hused, hpos, hfits⟩

/-- No two used blocks overlap. -/
theorem apart (h : HeapHolds lent s U) (hb : b ∈ U) (hc : c ∈ U) (hne : b ≠ c) : b.Apart c := by
  obtain ⟨regions, bins, hok, rfl⟩ := h.ordered
  have hpairwise := hok.laid.pairwise
  rw [blocksOf, List.map_map] at hpairwise
  exact hpairwise.forall (mem_usedOf.mp hb).1 (mem_usedOf.mp hc).1 hne

theorem nodup (h : HeapHolds lent s U) : U.Nodup := by
  obtain ⟨regions, bins, hok, rfl⟩ := h.ordered
  exact (Multiset.coe_nodup.mpr hok.lists.spaced.nodup.of_map).filter _

theorem eq_of_address (h : HeapHolds lent s U) (hb : b ∈ U) (hc : c ∈ U)
    (haddress : b.address = c.address) : b = c := by
  obtain ⟨regions, bins, hok, rfl⟩ := h.ordered
  exact hok.lists.eq_of_tag (mem_usedOf.mp hb).1 (mem_usedOf.mp hc).1
    ((BitVec.add_left_inj tagSize).mp haddress)

theorem size_at (h : HeapHolds lent s U) (hb : b ∈ U) : s.get b.tag .size = b.size := by
  obtain ⟨regions, bins, hok, rfl⟩ := h.ordered
  have hsize := (hok.lists.blockAt b (mem_usedOf.mp hb).1).size
  rwa [Allocator.get, mem_initLists] at hsize

theorem initLists_with (s : Allocator σ) (pages : σ) (mem : Memory) (flags : FlagState) :
    ({ s with pages, mem, flags } : Allocator σ).initLists =
      { s.initLists with pages, mem, flags } := by
  rw [initLists, initLists]
  split <;> rfl

/-- What is in the used blocks, and the flags, do not matter to the heap. -/
theorem write {mem : Memory} (h : HeapHolds lent s U) (flags : FlagState)
    (hmem : ∀ a, (∀ b ∈ U, ¬ b.Interior a) → mem a = s.mem a) :
    HeapHolds lent { s with mem, flags } U where
  ordered := by
    obtain ⟨regions, bins, hok, rfl⟩ := h.ordered
    have hwith := initLists_with s s.pages mem flags
    have hpages : s.initLists.pages = s.pages := by
      rw [initLists]
      split <;> rfl
    have hget : ∀ t ∈ tagsOf (allBlocks regions), ∀ f,
        ({ s.initLists with mem, flags } : Allocator σ).get t f = s.initLists.get t f := by
      intro t ht f
      refine field_congr (hok.lists.spaced.fit t ht).2 (fun a ha => ?_) f
      rw [mem_initLists]
      refine hmem a fun b hb hin => ?_
      have hblocks : blocksOf (regions.map fun R => (R.toPageRange, R.blocks)) =
          allBlocks regions := by
        rw [blocksOf, List.map_map]
        rfl
      exact hok.laid.not_inTag (hblocks.symm ▸ (mem_usedOf.mp hb).1) hin t (hblocks.symm ▸ ht) ha
    refine ⟨regions, bins, ?_, rfl⟩
    rw [hwith]
    exact ⟨⟨hok.counts, hok.few, hpages ▸ hok.lent⟩, hok.lists.congr hget fun _ _ => rfl, hok.apart⟩
  untouched := h.untouched

/-- What happens outside the lent pages leaves the heap, and what is in it. -/
theorem elsewhere {pages : σ} {mem : Memory} {flags : FlagState} (h : HeapHolds lent s U)
    (hkeep : ∀ ranges, lent s.pages ranges →
      lent pages ranges ∧ ∀ r ∈ ranges, r.Keeps s.mem mem) :
    KeepsUsed U s.mem mem ∧ HeapHolds lent { s with pages, mem, flags } U := by
  obtain ⟨regions, bins, hok, rfl⟩ := h.ordered
  have hpages : s.initLists.pages = s.pages := by
    rw [initLists]
    split <;> rfl
  obtain ⟨hlent, hkept⟩ := hkeep _ (hpages ▸ hok.lent)
  rw [← mem_initLists s] at hkept ⊢
  obtain ⟨hget, hused⟩ := @get_of_keeps σ s.initLists { s.initLists with pages, mem, flags } regions
    hok.apart hkept
  refine ⟨hused, ⟨regions, bins, ?_, rfl⟩, h.untouched⟩
  rw [initLists_with]
  exact ⟨⟨hok.counts, hok.few, hlent⟩, hok.lists.congr hget fun _ _ => rfl, hok.apart⟩

end HeapHolds

/-! ### Objects -/

/-- What is known of an object's bytes is in memory. -/
def KnownAt (mem : Memory) (p : Word) (bytes : List (Option Byte)) : Prop :=
  ∀ i v, bytes[i]? = some (some v) → mem (p + BitVec.ofNat 32 i) = v

theorem KnownAt.unknown (mem : Memory) (p : Word) (n : ℕ) :
    KnownAt mem p (List.replicate n none) := by
  intro i v hi
  rw [List.getElem?_replicate] at hi
  split at hi <;> cases hi

/-- Two ranges of bytes without a byte in common. -/
def RangesApart (p : Word) (m : ℕ) (q : Word) (n : ℕ) : Prop :=
  p.toNat + m ≤ q.toNat ∨ q.toNat + n ≤ p.toNat

/-- **The objects** are those of the used blocks `U`. -/
structure ShowsObjects (lent : σ → Multiset PageRange → Prop) (s : Allocator σ)
    (U : Multiset HeapBlock) (objs : Objects Word Byte) : Prop where
  holds : HeapHolds lent s U
  object : ∀ b ∈ U, b.address ≠ 0 ∧ ∃ bytes, objs b.address = some bytes ∧
    bytes.length = b.size.toNat ∧ KnownAt s.mem b.address bytes
  block : ∀ p bytes, objs p = some bytes → ∃ b ∈ U, b.address = p

namespace ShowsObjects

variable {objs : Objects Word Byte} {bytes : List (Option Byte)}

theorem start (h : HeapHolds lent s 0) : ShowsObjects lent s 0 fun _ => none where
  holds := h
  object := fun b hb => absurd hb (Multiset.notMem_zero b)
  block := fun p bytes hp => by cases hp

/-- The bytes of an object are in its block. -/
theorem known {mem : Memory} (h : ShowsObjects lent s U objs) (hb : b ∈ U)
    (hkeep : ∀ a, b.Interior a → mem a = s.mem a) (hobj : objs b.address = some bytes) :
    b.address ≠ 0 ∧ bytes.length = b.size.toNat ∧ KnownAt mem b.address bytes := by
  obtain ⟨haddress, bytes', hbytes', hlength, hknown⟩ := h.object b hb
  obtain rfl : bytes' = bytes := Option.some.inj (hbytes'.symm.trans hobj)
  refine ⟨haddress, hlength, fun i v hi => ?_⟩
  have hlt : i < b.size.toNat := by
    rw [← hlength]
    exact (List.getElem?_eq_some_iff.mp hi).1
  rw [hkeep _ ((h.holds.roomy hb).interior haddress hlt).2]
  exact hknown i v hi

/-- **A new block** is a new object, apart from the others. -/
theorem add (h : ShowsObjects lent s U objs) (bytes : List (Option Byte))
    (hkeep : KeepsUsed U s.mem s'.mem) (hholds : HeapHolds lent s' (b ::ₘ U))
    (haddress : b.address ≠ 0) (hlength : bytes.length = b.size.toNat)
    (hknown : KnownAt s'.mem b.address bytes) :
    ObjectEvent.Clear RangesApart objs b.address bytes.length ∧
      ShowsObjects lent s' (b ::ₘ U) (Function.update objs b.address (some bytes)) := by
  have hb : b ∈ b ::ₘ U := Multiset.mem_cons_self b U
  have hother : ∀ c ∈ U, b ≠ c ∧ c.address ≠ b.address := by
    intro c hc
    have hne : b ≠ c := by
      rintro rfl
      exact (Multiset.nodup_cons.mp hholds.nodup).1 hc
    refine ⟨hne, fun heq => hne ?_⟩
    exact (hholds.eq_of_address (Multiset.mem_cons_of_mem hc) hb heq).symm
  refine ⟨⟨?_, ?_⟩, hholds, ?_, ?_⟩
  · by_contra hsome
    obtain ⟨bytes', hbytes'⟩ := Option.ne_none_iff_exists'.mp hsome
    obtain ⟨c, hc, hcb⟩ := h.block _ _ hbytes'
    exact (hother c hc).2 hcb
  · intro q bytes' hq
    obtain ⟨c, hc, rfl⟩ := h.block _ _ hq
    obtain ⟨hne, -⟩ := hother c hc
    obtain ⟨hcaddress, hlength', -⟩ := h.known hc (fun _ _ => rfl) hq
    have hbc := hholds.apart hb (Multiset.mem_cons_of_mem hc) hne
    have hbr := hholds.roomy hb
    have hcr := h.holds.roomy hc
    have hbroom := hbr.room
    have hcroom := hcr.room
    rw [RangesApart, hbr.toNat_address haddress, hcr.toNat_address hcaddress, hlength, hlength']
    rw [HeapBlock.Apart] at hbc
    omega
  · intro c hc
    rcases Multiset.mem_cons.mp hc with rfl | hc
    · exact ⟨haddress, bytes, Function.update_self .., hlength, hknown⟩
    · obtain ⟨-, bytes', hbytes', -⟩ := h.object c hc
      obtain ⟨hcaddress, hat⟩ := h.known hc (hkeep c hc) hbytes'
      rw [Function.update_of_ne (hother c hc).2]
      exact ⟨hcaddress, bytes', hbytes', hat⟩
  · intro p bytes' hp
    rw [Function.update_apply] at hp
    split at hp
    · next hpb => exact ⟨b, hb, hpb.symm⟩
    · obtain ⟨c, hc, hcp⟩ := h.block p bytes' hp
      exact ⟨c, Multiset.mem_cons_of_mem hc, hcp⟩

/-- **A block that is freed** is an object less. -/
theorem remove (h : ShowsObjects lent s (b ::ₘ U) objs) (hkeep : KeepsUsed U s.mem s'.mem)
    (hholds : HeapHolds lent s' U) :
    ShowsObjects lent s' U (Function.update objs b.address none) where
  holds := hholds
  object := by
    intro c hc
    have hc' := Multiset.mem_cons_of_mem (b := b) hc
    have hne : c.address ≠ b.address := by
      intro heq
      obtain rfl := h.holds.eq_of_address hc' (Multiset.mem_cons_self b U) heq
      exact (Multiset.nodup_cons.mp h.holds.nodup).1 hc
    obtain ⟨-, bytes', hbytes', -⟩ := h.object c hc'
    obtain ⟨hcaddress, hat⟩ := h.known hc' (hkeep c hc) hbytes'
    rw [Function.update_of_ne hne]
    exact ⟨hcaddress, bytes', hbytes', hat⟩
  block := by
    intro p bytes' hp
    rw [Function.update_apply] at hp
    split at hp
    · cases hp
    · next hpb =>
      obtain ⟨c, hc, hcp⟩ := h.block p bytes' hp
      rcases Multiset.mem_cons.mp hc with rfl | hc
      · exact absurd hcp.symm hpb
      · exact ⟨c, hc, hcp⟩

/-- **Writing** the bytes of one object. -/
theorem write (h : ShowsObjects lent s U objs) (bytes : List (Option Byte)) (mem : Memory)
    (hb : b ∈ U) (hmem : ∀ a, ¬ b.Interior a → mem a = s.mem a)
    (hlength : bytes.length = b.size.toNat) (hknown : KnownAt mem b.address bytes) :
    ShowsObjects lent { s with mem } U (Function.update objs b.address (some bytes)) where
  holds := h.holds.write s.flags fun a ha => hmem a (ha b hb)
  object := by
    intro c hc
    by_cases hcb : c = b
    · subst hcb
      exact ⟨(h.object c hc).1, bytes, Function.update_self .., hlength, hknown⟩
    · have hne : c.address ≠ b.address := fun heq => hcb (h.holds.eq_of_address hc hb heq)
      have hkeep : ∀ a, c.Interior a → mem a = s.mem a := by
        intro a hin
        refine hmem a fun hbin => ?_
        have hapart := h.holds.apart hc hb hcb
        rw [HeapBlock.Apart] at hapart
        rw [HeapBlock.Interior] at hin hbin
        omega
      obtain ⟨-, bytes', hbytes', -⟩ := h.object c hc
      obtain ⟨hcaddress, hat⟩ := h.known hc hkeep hbytes'
      rw [Function.update_of_ne hne]
      exact ⟨hcaddress, bytes', hbytes', hat⟩
  block := by
    intro p bytes' hp
    rw [Function.update_apply] at hp
    split at hp
    · next hpb => exact ⟨b, hb, hpb.symm⟩
    · exact h.block p bytes' hp

/-- Nothing new. -/
theorem keep (h : ShowsObjects lent s U objs) (hkeep : KeepsUsed U s.mem s'.mem)
    (hholds : HeapHolds lent s' U) : ShowsObjects lent s' U objs where
  holds := hholds
  object := by
    intro c hc
    obtain ⟨-, bytes', hbytes', -⟩ := h.object c hc
    obtain ⟨hcaddress, hat⟩ := h.known hc (hkeep c hc) hbytes'
    exact ⟨hcaddress, bytes', hbytes', hat⟩
  block := h.block

/-- The lock does not touch the heap. -/
theorem locked (h : ShowsObjects lent s U objs) : ShowsObjects lent s.lock.unlock U objs :=
  ⟨h.holds.write _ fun _ _ => rfl, h.object, h.block⟩

/-! ### The calls -/

section Calls

variable (hsrc : src.Honest lent) (hfuel : 2 ^ 32 < fuel)

include hsrc hfuel

theorem malloc {size ptr : Word} (h : ShowsObjects lent s U objs) (hsize : size.toNat + 32 < 2 ^ 32)
    (hm : s.malloc src fuel size = some (ptr, s')) :
    KeepsUsed U s.mem s'.mem ∧
      (ptr = 0 ∧ ShowsObjects lent s' U objs ∨
        ptr ≠ 0 ∧ ObjectEvent.Clear RangesApart objs ptr size.toNat ∧
          ∃ b, (b.address = ptr ∧ b.size = size) ∧ ShowsObjects lent s' (b ::ₘ U)
            (Function.update objs ptr (some (List.replicate size.toNat none)))) := by
  obtain ⟨hkeep, ⟨h0, hholds⟩ | ⟨hptr, b, ⟨rfl, hb⟩, hholds⟩⟩ :=
    malloc_spec h.holds hsrc hfuel hsize hm
  · exact ⟨hkeep, Or.inl ⟨h0, h.keep hkeep hholds⟩⟩
  · obtain ⟨hclear, hshows⟩ := h.add (List.replicate size.toNat none) hkeep hholds hptr
      (by rw [List.length_replicate, hb]) (.unknown _ _ _)
    rw [List.length_replicate] at hclear
    exact ⟨hkeep, Or.inr ⟨hptr, hclear, b, ⟨rfl, hb⟩, hshows⟩⟩

theorem free (h : ShowsObjects lent s (b ::ₘ U) objs) (hf : s.free src fuel b.address = some s') :
    ShowsObjects lent s' U (Function.update objs b.address none) := by
  obtain ⟨hkeep, hholds⟩ := free_spec h.holds hsrc (by omega)
    (h.object b (Multiset.mem_cons_self b U)).1 hf
  exact h.remove hkeep hholds

/-- `calloc`, when it gets memory. -/
theorem calloc {nobj size ptr : Word} (h : ShowsObjects lent s U objs)
    (hsize : (nobj * size).toNat + 32 < 2 ^ 32) (hptr : ptr ≠ 0)
    (hc : s.calloc src fuel nobj size = some (ptr, s')) :
    ObjectEvent.Clear RangesApart objs ptr (nobj * size).toNat ∧
      ∃ b, (b.address = ptr ∧ b.size = nobj * size) ∧ ShowsObjects lent s' (b ::ₘ U)
        (Function.update objs ptr (some (List.replicate (nobj * size).toNat (some 0)))) := by
  obtain ⟨s₁, hm, -, rfl⟩ := calloc_eq_some.mp hc
  obtain ⟨-, ⟨h0, -⟩ | ⟨-, hclear, b, ⟨rfl, hb⟩, hshows⟩⟩ := h.malloc hsrc hfuel hsize hm
  · exact absurd h0 hptr
  · refine ⟨hclear, b, ⟨rfl, hb⟩, ?_⟩
    have hin : b ∈ b ::ₘ U := Multiset.mem_cons_self b U
    have hroomy := hshows.holds.roomy hin
    have hset := memsetLoop_spec 0 (nobj * size).isLt b.address
    have hwrite := hshows.write (List.replicate (nobj * size).toNat (some 0))
      (liballocMemset b.address 0 (nobj * size) s₁.mem).2 hin ?_
      (by rw [List.length_replicate, hb]) ?_
    · rwa [Function.update_idem] at hwrite
    · intro a ha
      refine (hset a s₁.mem).trans (if_neg fun hlt => ha ?_)
      exact hroomy.interior_of_sub_lt hptr (hb ▸ hlt)
    · intro i v hi
      rw [List.getElem?_replicate] at hi
      split at hi
      · next hlt =>
        obtain rfl := Option.some.inj (Option.some.inj hi)
        refine (hset _ s₁.mem).trans (if_pos ?_)
        rw [add_ofNat_sub (lt_trans hlt (nobj * size).isLt)]
        exact hlt
      · cases hi

/-- `calloc`, when it returns `NULL`: there was nothing to clear. -/
theorem calloc_null {nobj size : Word} (h : ShowsObjects lent s U objs)
    (hsize : (nobj * size).toNat + 32 < 2 ^ 32)
    (hc : s.calloc src fuel nobj size = some (0, s')) :
    nobj * size = 0 ∧ ShowsObjects lent s' U objs := by
  obtain ⟨s₁, hm, hzero, rfl⟩ := calloc_eq_some.mp hc
  obtain ⟨-, ⟨-, hshows⟩ | ⟨hne, -⟩⟩ := h.malloc hsrc hfuel hsize hm
  · refine ⟨hzero rfl, ?_⟩
    rw [hzero rfl]
    exact hshows
  · exact absurd rfl hne

omit hsrc hfuel in
/-- The copy of `realloc`, from the old block `b` to the new block `c`. -/
theorem copied {n : Word} {bytes : List (Option Byte)} {size : ℕ}
    (h : ShowsObjects lent s (c ::ₘ b ::ₘ U) objs) (hbytes : objs b.address = some bytes)
    (hsize : c.size.toNat = size) (hn : n.toNat = min size bytes.length) :
    ShowsObjects lent { s with mem := (liballocMemcpy c.address b.address n s.mem).2 }
      (c ::ₘ b ::ₘ U) (Function.update objs c.address (some (resized size bytes))) := by
  have hc : c ∈ c ::ₘ b ::ₘ U := Multiset.mem_cons_self _ _
  have hb : b ∈ c ::ₘ b ::ₘ U := Multiset.mem_cons_of_mem (Multiset.mem_cons_self _ _)
  have hne : c ≠ b := by
    rintro rfl
    exact (Multiset.nodup_cons.mp h.holds.nodup).1 (Multiset.mem_cons_self _ _)
  obtain ⟨hbaddress, hblength, hknown⟩ := h.known hb (fun _ _ => rfl) hbytes
  have hcroomy := h.holds.roomy hc
  have hbroomy := h.holds.roomy hb
  have hcto := hcroomy.toNat_address (h.object c hc).1
  have hbto := hbroomy.toNat_address hbaddress
  have hcroom := hcroomy.room
  have hbroom := hbroomy.room
  have hcfits := hcroomy.fits
  have hbfits := hbroomy.fits
  have hapart := h.holds.apart hc hb hne
  rw [HeapBlock.Apart] at hapart
  have hcopy := @liballocMemcpy_copied c.address b.address n (by omega) (by omega) (by omega)
    s.mem
  refine h.write (resized size bytes) _ hc ?_ (by rw [length_resized, hsize]) ?_
  · intro a ha
    refine hcopy.frame a ?_
    rw [HeapBlock.Interior] at ha
    omega
  · intro i v hi
    obtain ⟨hi, hilength, hv⟩ := getElem?_resized hi
    rw [hcopy.content i (by omega)]
    exact hknown i v hv

omit hsrc hfuel in
/-- `realloc` of an object to another size, with what it reads in the old tag. -/
theorem realloc_eq_some {size ptr : Word} (h : ShowsObjects lent s (b ::ₘ U) objs)
    (hne : size ≠ 0) :
    s.realloc src fuel b.address size = some (ptr, s') ↔
      ∃ s₁, s.lock.unlock.malloc src fuel size = some (ptr, s₁) ∧ (ptr = 0 → b.size = 0) ∧
        Allocator.free { s₁ with mem := (liballocMemcpy ptr b.address
          (if b.size > size then size else b.size) s₁.mem).2 } src fuel b.address = some s' := by
  have hb : b ∈ b ::ₘ U := Multiset.mem_cons_self b U
  have hold : s.lock.get (b.address - tagSize) .size = b.size := by
    have htag : b.address - tagSize = b.tag := BitVec.add_sub_cancel ..
    rw [htag]
    exact h.holds.size_at hb
  have hzero : (if b.size > size then size else b.size) = 0 ↔ b.size = 0 := by
    split
    · next hgt =>
      refine ⟨fun h0 => absurd h0 hne, fun h0 => ?_⟩
      rw [h0] at hgt
      exact absurd hgt BitVec.not_lt_zero
    · exact Iff.rfl
  rw [Allocator.realloc_eq_some hne (h.object b hb).1, hold, hzero]

/-- `realloc` up to `free`, when it gets the memory. -/
theorem reallocated {size ptr : Word} {s₁ : Allocator σ} {bytes : List (Option Byte)}
    (h : ShowsObjects lent s (b ::ₘ U) objs) (hbytes : objs b.address = some bytes)
    (hsize : size.toNat + 32 < 2 ^ 32) (hptr : ptr ≠ 0)
    (hm : s.lock.unlock.malloc src fuel size = some (ptr, s₁)) :
    ObjectEvent.Clear RangesApart objs ptr size.toNat ∧ b.address ≠ ptr ∧
      ∃ c, (c.address = ptr ∧ c.size = size) ∧
        ShowsObjects lent { s₁ with mem := (liballocMemcpy ptr b.address
            (if b.size > size then size else b.size) s₁.mem).2 } (b ::ₘ c ::ₘ U)
          (Function.update objs ptr (some (resized size.toNat bytes))) := by
  obtain ⟨-, ⟨h0, -⟩ | ⟨-, hclear, c, ⟨rfl, hc⟩, hshows⟩⟩ :=
    h.locked.malloc hsrc hfuel hsize hm
  · exact absurd h0 hptr
  · have hbc : b.address ≠ c.address := by
      intro heq
      rw [← heq, ObjectEvent.Clear, hbytes] at hclear
      exact absurd hclear.1 (by simp)
    have hlength := (h.known (Multiset.mem_cons_self b U) (fun _ _ => rfl) hbytes).2.1
    have hmin : (if b.size > size then size else b.size).toNat = min size.toNat bytes.length := by
      rw [hlength]
      split
      · next hgt =>
        rw [gt_iff_lt, BitVec.lt_def] at hgt
        omega
      · next hle =>
        rw [gt_iff_lt, BitVec.lt_def] at hle
        omega
    have hbytes' : Function.update objs c.address (some (List.replicate size.toNat none))
        b.address = some bytes := by rwa [Function.update_of_ne hbc]
    have hcopied := hshows.copied hbytes' (congrArg BitVec.toNat hc) hmin
    rw [Multiset.cons_swap, Function.update_idem] at hcopied
    exact ⟨hclear, hbc, c, ⟨rfl, hc⟩, hcopied⟩

/-- `realloc` of an object to another size, when it gets the memory. -/
theorem realloc {size ptr : Word} (h : ShowsObjects lent s (b ::ₘ U) objs)
    (hsize : size.toNat + 32 < 2 ^ 32) (hne : size ≠ 0) (hptr : ptr ≠ 0)
    (hr : s.realloc src fuel b.address size = some (ptr, s')) :
    ObjectEvent.Clear RangesApart objs ptr size.toNat ∧
      ∃ c, (c.address = ptr ∧ c.size = size) ∧ ShowsObjects lent s' (c ::ₘ U)
        ((ObjectEvent.resize b.address size.toNat ptr).after objs) := by
  obtain ⟨-, bytes, hbytes, -⟩ := h.object b (Multiset.mem_cons_self b U)
  obtain ⟨s₁, hm, -, hf⟩ := (h.realloc_eq_some hne).mp hr
  obtain ⟨hclear, hbc, c, hc, hshows⟩ := h.reallocated hsrc hfuel hbytes hsize hptr hm
  have hfreed := hshows.free hsrc hfuel hf
  refine ⟨hclear, c, hc, ?_⟩
  rwa [ObjectEvent.after, hbytes, Option.map_some, Function.update_comm hbc]

/-- `realloc` of an object, when it returns `NULL`: the object was empty, and is given up. -/
theorem realloc_null {size : Word} (h : ShowsObjects lent s (b ::ₘ U) objs)
    (hsize : size.toNat + 32 < 2 ^ 32) (hne : size ≠ 0)
    (hr : s.realloc src fuel b.address size = some (0, s')) :
    b.size = 0 ∧ ShowsObjects lent s' U (Function.update objs b.address none) := by
  obtain ⟨s₁, hm, hzero, hf⟩ := (h.realloc_eq_some hne).mp hr
  obtain ⟨-, ⟨-, hshows⟩ | ⟨hptr, -⟩⟩ := h.locked.malloc hsrc hfuel hsize hm
  · refine ⟨hzero rfl, ?_⟩
    -- nothing is copied
    rw [hzero rfl, smaller_zero] at hf
    exact hshows.free hsrc hfuel hf
  · exact absurd rfl hptr

end Calls

end ShowsObjects

/-! ### Runs -/

/-- What may happen: a call, with what it returns; what the program does to a byte of an
object; and what the rest of the kernel does. -/
inductive AllocatorCall
  | malloc (size ptr : Word)
  | calloc (nobj size ptr : Word)
  | free (ptr : Word)
  | realloc (p size ptr : Word)
  | store (p : Word) (i : ℕ) (v : Byte)
  | load (p : Word) (i : ℕ) (v : Byte)
  | elsewhere

/-- What it does.  The rest of the kernel leaves the pages that are lent. -/
inductive AllocatorStep (src : PageSource σ) (lent : σ → Multiset PageRange → Prop) (fuel : ℕ) :
    Allocator σ → AllocatorCall → Allocator σ → Prop
  | malloc {s s' : Allocator σ} {size ptr : Word} :
      s.malloc src fuel size = some (ptr, s') →
      AllocatorStep src lent fuel s (.malloc size ptr) s'
  | calloc {s s' : Allocator σ} {nobj size ptr : Word} :
      s.calloc src fuel nobj size = some (ptr, s') →
      AllocatorStep src lent fuel s (.calloc nobj size ptr) s'
  | free {s s' : Allocator σ} {ptr : Word} :
      s.free src fuel ptr = some s' → AllocatorStep src lent fuel s (.free ptr) s'
  | realloc {s s' : Allocator σ} {p size ptr : Word} :
      s.realloc src fuel p size = some (ptr, s') →
      AllocatorStep src lent fuel s (.realloc p size ptr) s'
  | store {s : Allocator σ} {p : Word} {i : ℕ} {v : Byte} :
      AllocatorStep src lent fuel s (.store p i v)
        { s with mem := Function.update s.mem (p + BitVec.ofNat 32 i) v }
  | load {s : Allocator σ} {p : Word} {i : ℕ} :
      AllocatorStep src lent fuel s (.load p i (s.mem (p + BitVec.ofNat 32 i))) s
  | elsewhere {s : Allocator σ} {pages : σ} {mem : Memory} {flags : FlagState} :
      (∀ ranges, lent s.pages ranges → lent pages ranges ∧ ∀ r ∈ ranges, r.Keeps s.mem mem) →
      AllocatorStep src lent fuel s .elsewhere { s with pages, mem, flags }

namespace AllocatorCall

/-- What it is to the objects. -/
def event : AllocatorCall → ObjectEvent Word Byte
  | malloc size ptr => if ptr = 0 then .nothing else .alloc ptr (List.replicate size.toNat none)
  | calloc nobj size ptr =>
    if ptr = 0 then .nothing else .alloc ptr (List.replicate (nobj * size).toNat (some 0))
  | free ptr => if ptr = 0 then .nothing else .free ptr
  | realloc p size ptr =>
    if size = 0 then (if p = 0 then .nothing else .free p)
    else if p = 0 then
      (if ptr = 0 then .nothing else .alloc ptr (List.replicate size.toNat none))
    else if ptr = 0 then .free p
    else .resize p size.toNat ptr
  | store p i v => .store p i v
  | load p i v => .load p i v
  | elsewhere => .nothing

/-- The sizes are in reach: a tag more is still a number. -/
def Fits : AllocatorCall → Prop
  | malloc size _ => size.toNat + 32 < 2 ^ 32
  | calloc nobj size _ => (nobj * size).toNat + 32 < 2 ^ 32
  | realloc _ size _ => size.toNat + 32 < 2 ^ 32
  | _ => True

/-- The objects after it. -/
def after (objs : Objects Word Byte) (c : AllocatorCall) : Objects Word Byte := c.event.after objs

/-- What is asked of the program. -/
def Asked (objs : Objects Word Byte) (c : AllocatorCall) : Prop := c.Fits ∧ c.event.Asked objs

/-- What the allocator grants. -/
def Granted (objs : Objects Word Byte) (c : AllocatorCall) : Prop :=
  c.event.Granted RangesApart objs

end AllocatorCall

/-- **The objects of a state.** -/
def Represents (lent : σ → Multiset PageRange → Prop) (s : Allocator σ)
    (objs : Objects Word Byte) : Prop :=
  ∃ U, ShowsObjects lent s U objs

theorem Represents.start (hinit : s.initialized = 0) (hlent : lent s.pages 0) :
    Represents lent s fun _ => none :=
  ⟨0, .start (.start hinit hlent)⟩

/-- An object and its block. -/
theorem ShowsObjects.exists_cons {objs : Objects Word Byte} {p : Word} {bytes : List (Option Byte)}
    (h : ShowsObjects lent s U objs) (hp : objs p = some bytes) :
    ∃ b V, U = b ::ₘ V ∧ b.address = p ∧ p ≠ 0 := by
  obtain ⟨b, hb, rfl⟩ := h.block p bytes hp
  obtain ⟨V, rfl⟩ := Multiset.exists_cons_of_mem hb
  exact ⟨b, V, rfl, rfl, (h.object b hb).1⟩

/-- Objects lie in pages that are lent. -/
theorem Represents.in_place {objs : Objects Word Byte} (h : Represents lent s objs) :
    ∃ ranges, lent s.pages ranges ∧ ∀ p bytes, objs p = some bytes →
      p ≠ 0 ∧ ∃ r ∈ ranges, r.start ≤ p.toNat ∧ p.toNat + bytes.length ≤ r.stop := by
  obtain ⟨U, hU⟩ := h
  obtain ⟨regions, bins, hok, rfl⟩ := hU.holds.ordered
  have hpages : s.initLists.pages = s.pages := by
    rw [initLists]
    split <;> rfl
  refine ⟨rangesOf regions, hpages ▸ hok.lent, fun p bytes hp => ?_⟩
  obtain ⟨b, hb, rfl⟩ := hU.block p bytes hp
  obtain ⟨haddress, hlength, -⟩ := hU.known hb (fun _ _ => rfl) hp
  obtain ⟨row, hrow, hbrow⟩ := List.mem_flatten.mp (mem_usedOf.mp hb).1
  obtain ⟨R, hR, rfl⟩ := List.mem_map.mp hrow
  have hbounds := R.tiles.bounds hbrow
  have hroomy := hU.holds.roomy hb
  have hroom := hroomy.room
  refine ⟨haddress, R.toPageRange, Multiset.mem_coe.mpr (List.mem_map_of_mem hR), ?_, ?_⟩
  · rw [hroomy.toNat_address haddress]
    omega
  · rw [hroomy.toNat_address haddress, hlength]
    omega

section Steps

variable {objs : Objects Word Byte} {p : Word} {bytes : List (Option Byte)}

theorem ShowsObjects.refinesMalloc {size ptr : Word} (h : ShowsObjects lent s U objs)
    (hsrc : src.Honest lent) (hfuel : 2 ^ 32 < fuel) (hsize : size.toNat + 32 < 2 ^ 32)
    (hm : s.malloc src fuel size = some (ptr, s')) :
    (if ptr = 0 then ObjectEvent.nothing else
        .alloc ptr (List.replicate size.toNat none)).Granted RangesApart objs ∧
      Represents lent s' ((if ptr = 0 then ObjectEvent.nothing else
        .alloc ptr (List.replicate size.toNat none)).after objs) := by
  obtain ⟨-, ⟨rfl, hshows⟩ | ⟨hptr, hclear, b, -, hshows⟩⟩ := h.malloc hsrc hfuel hsize hm
  · exact ⟨trivial, U, hshows⟩
  · rw [if_neg hptr]
    exact ⟨by simpa [ObjectEvent.Granted] using hclear, b ::ₘ U, hshows⟩

theorem ShowsObjects.refinesCalloc {nobj size ptr : Word} (h : ShowsObjects lent s U objs)
    (hsrc : src.Honest lent) (hfuel : 2 ^ 32 < fuel) (hsize : (nobj * size).toNat + 32 < 2 ^ 32)
    (hc : s.calloc src fuel nobj size = some (ptr, s')) :
    (if ptr = 0 then ObjectEvent.nothing else
        .alloc ptr (List.replicate (nobj * size).toNat (some 0))).Granted RangesApart objs ∧
      Represents lent s' ((if ptr = 0 then ObjectEvent.nothing else
        .alloc ptr (List.replicate (nobj * size).toNat (some 0))).after objs) := by
  by_cases hptr : ptr = 0
  · subst hptr
    exact ⟨trivial, U, (h.calloc_null hsrc hfuel hsize hc).2⟩
  · obtain ⟨hclear, b, -, hshows⟩ := h.calloc hsrc hfuel hsize hptr hc
    rw [if_neg hptr]
    exact ⟨by simpa [ObjectEvent.Granted] using hclear, b ::ₘ U, hshows⟩

theorem ShowsObjects.refinesFree (h : ShowsObjects lent s U objs) (hsrc : src.Honest lent)
    (hfuel : 2 ^ 32 < fuel)
    (hask : (if p = 0 then ObjectEvent.nothing else .free p).Asked objs)
    (hf : s.free src fuel p = some s') :
    (if p = 0 then ObjectEvent.nothing else .free p).Granted RangesApart objs ∧
      Represents lent s' ((if p = 0 then ObjectEvent.nothing else .free p).after objs) := by
  by_cases hp : p = 0
  · subst hp
    obtain rfl := Option.some.inj hf
    exact ⟨trivial, U, h⟩
  · rw [if_neg hp] at hask ⊢
    obtain ⟨bytes, hbytes⟩ := hask
    obtain ⟨b, V, rfl, rfl, -⟩ := h.exists_cons hbytes
    exact ⟨trivial, V, h.free hsrc hfuel hf⟩

theorem ShowsObjects.refinesRealloc {size ptr : Word} (h : ShowsObjects lent s U objs)
    (hsrc : src.Honest lent) (hfuel : 2 ^ 32 < fuel) (hsize : size.toNat + 32 < 2 ^ 32)
    (hne : size ≠ 0) (hbytes : objs p = some bytes)
    (hr : s.realloc src fuel p size = some (ptr, s')) :
    (if ptr = 0 then ObjectEvent.free p else .resize p size.toNat ptr).Granted RangesApart objs ∧
      Represents lent s' ((if ptr = 0 then ObjectEvent.free p else
        .resize p size.toNat ptr).after objs) := by
  obtain ⟨b, V, rfl, rfl, -⟩ := h.exists_cons hbytes
  by_cases hptr : ptr = 0
  · subst hptr
    exact ⟨trivial, V, (h.realloc_null hsrc hfuel hsize hne hr).2⟩
  · obtain ⟨hclear, c, -, hshows⟩ := h.realloc hsrc hfuel hsize hne hptr hr
    rw [if_neg hptr]
    exact ⟨hclear, c ::ₘ V, hshows⟩

theorem ShowsObjects.refinesStore {i : ℕ} {v : Byte} (h : ShowsObjects lent s U objs)
    (hbytes : objs p = some bytes) (hi : i < bytes.length) :
    Represents lent { s with mem := Function.update s.mem (p + BitVec.ofNat 32 i) v }
      ((ObjectEvent.store p i v).after objs) := by
  obtain ⟨b, hb, rfl⟩ := h.block p bytes hbytes
  obtain ⟨haddress, hlength, hknown⟩ := h.known hb (fun _ _ => rfl) hbytes
  have hsize := b.size.isLt
  refine ⟨U, ?_⟩
  rw [ObjectEvent.after, hbytes, Option.map_some]
  refine h.write (bytes.set i (some v)) _ hb ?_ (by rw [List.length_set, hlength]) ?_
  · intro a ha
    refine Function.update_of_ne ?_ ..
    rintro rfl
    exact ha ((h.holds.roomy hb).interior haddress (hlength ▸ hi)).2
  · intro j w hj
    by_cases hij : i = j
    · subst hij
      rw [List.getElem?_set_self hi] at hj
      obtain rfl := Option.some.inj (Option.some.inj hj)
      exact Function.update_self ..
    · rw [List.getElem?_set_ne hij] at hj
      have hjlength := (List.getElem?_eq_some_iff.mp hj).1
      rw [Function.update_of_ne]
      · exact hknown j w hj
      · intro heq
        have hnat := congrArg BitVec.toNat ((BitVec.add_right_inj b.address).mp heq)
        rw [BitVec.toNat_ofNat, BitVec.toNat_ofNat] at hnat
        omega

end Steps

/-- **One step**: what is asked is granted, and the objects are those after it. -/
theorem AllocatorStep.refines {objs : Objects Word Byte} {call : AllocatorCall}
    (hsrc : src.Honest lent) (hfuel : 2 ^ 32 < fuel)
    (hstep : AllocatorStep src lent fuel s call s') (h : Represents lent s objs)
    (hask : call.Asked objs) : call.Granted objs ∧ Represents lent s' (call.after objs) := by
  obtain ⟨U, hU⟩ := h
  obtain ⟨hfits, hask⟩ := hask
  unfold AllocatorCall.Granted AllocatorCall.after
  cases hstep with
  | malloc hm =>
    exact hU.refinesMalloc hsrc hfuel hfits hm
  | @calloc _ nobj size ptr hc =>
    exact hU.refinesCalloc hsrc hfuel hfits hc
  | @free _ ptr hf =>
    exact hU.refinesFree hsrc hfuel hask hf
  | @realloc _ p size ptr hr =>
    by_cases hsize : size = 0
    · -- it frees the object
      rw [AllocatorCall.event, if_pos hsize] at hask ⊢
      rw [Allocator.realloc, if_pos hsize] at hr
      cases hf : s.free src fuel p with
      | none => simp [hf] at hr
      | some s₁ =>
        simp only [hf, Option.some.injEq, Prod.mk.injEq] at hr
        obtain ⟨-, rfl⟩ := hr
        exact hU.refinesFree hsrc hfuel hask hf
    · rw [AllocatorCall.event, if_neg hsize] at hask ⊢
      by_cases hp : p = 0
      · rw [Allocator.realloc, if_neg hsize, if_pos hp] at hr
        rw [if_pos hp]
        exact hU.refinesMalloc hsrc hfuel hfits hr
      · rw [if_neg hp] at hask ⊢
        obtain ⟨bytes, hbytes⟩ : ∃ bytes, objs p = some bytes := by
          split at hask
          · exact hask
          · exact hask
        exact hU.refinesRealloc hsrc hfuel hfits hsize hbytes hr
  | @store p i v =>
    obtain ⟨bytes, hbytes, hi⟩ := hask
    exact ⟨trivial, hU.refinesStore hbytes hi⟩
  | @load p i =>
    refine ⟨?_, U, hU⟩
    intro bytes w hbytes hw
    obtain ⟨b, hb, rfl⟩ := hU.block p bytes hbytes
    obtain ⟨-, -, hknown⟩ := hU.known hb (fun _ _ => rfl) hbytes
    exact hknown i w hw
  | elsewhere hkeep =>
    obtain ⟨hkept, hholds⟩ := hU.holds.elsewhere hkeep
    exact ⟨trivial, U, hU.keep hkept hholds⟩

/-! ### Which calls return -/

section Returns

variable {objs : Objects Word Byte} (hsrc : src.Honest lent) (hfuel : 2 ^ 32 < fuel)
  (halloc : ∀ n p mem, (src.liballocAlloc n p mem).isSome)

include hfuel halloc

/-- `calloc` returns, or `malloc` has given it no memory to clear. -/
theorem ShowsObjects.calloc_returns (h : ShowsObjects lent s U objs) (nobj size : Word) :
    (s.calloc src fuel nobj size).isSome ∨
      nobj * size ≠ 0 ∧ ∃ s₁, s.malloc src fuel (nobj * size) = some (0, s₁) := by
  obtain ⟨⟨ptr, s₁⟩, hm⟩ := Option.isSome_iff_exists.mp
    (malloc_isSome h.holds hfuel halloc (nobj * size))
  by_cases hnull : ptr = 0 ∧ nobj * size ≠ 0
  · obtain ⟨rfl, hne⟩ := hnull
    exact Or.inr ⟨hne, s₁, hm⟩
  · have hzero : ptr = 0 → nobj * size = 0 := fun h0 => not_not.mp fun hne => hnull ⟨h0, hne⟩
    exact Or.inl (Option.isSome_iff_exists.mpr ⟨_, calloc_eq_some.mpr ⟨s₁, hm, hzero, rfl⟩⟩)

include hsrc in
/-- `realloc` of an object to another size returns, or `malloc` has given it no memory to
copy to. -/
theorem ShowsObjects.realloc_returns {size : Word} (h : ShowsObjects lent s (b ::ₘ U) objs)
    (hfree : ∀ r p mem ranges, lent p (r ::ₘ ranges) →
      (src.liballocFree r.base r.pages p mem).isSome)
    (hsize : size.toNat + 32 < 2 ^ 32) (hne : size ≠ 0) :
    (s.realloc src fuel b.address size).isSome ∨
      b.size ≠ 0 ∧ ∃ s₁, s.lock.unlock.malloc src fuel size = some (0, s₁) := by
  obtain ⟨haddress, bytes, hbytes, -⟩ := h.object b (Multiset.mem_cons_self b U)
  obtain ⟨⟨ptr, s₁⟩, hm⟩ := Option.isSome_iff_exists.mp
    (malloc_isSome h.locked.holds hfuel halloc size)
  by_cases hptr : ptr = 0
  · subst hptr
    by_cases hempty : b.size = 0
    · -- nothing is copied, and the object is given up
      refine Or.inl ?_
      obtain ⟨-, ⟨-, hshows⟩ | ⟨hptr, -⟩⟩ := h.locked.malloc hsrc hfuel hsize hm
      · have hfreed : (s₁.free src fuel b.address).isSome :=
          free_isSome hshows.holds (by omega) haddress hfree
        obtain ⟨s₂, hf⟩ := Option.isSome_iff_exists.mp hfreed
        refine Option.isSome_iff_exists.mpr
          ⟨(0, s₂), (h.realloc_eq_some hne).mpr ⟨s₁, hm, fun _ => hempty, ?_⟩⟩
        rw [hempty, smaller_zero]
        exact hf
      · exact absurd rfl hptr
    · exact Or.inr ⟨hempty, s₁, hm⟩
  · obtain ⟨-, -, c, -, hshows⟩ := h.reallocated hsrc hfuel hbytes hsize hptr hm
    have hfreed : (Allocator.free _ src fuel b.address).isSome :=
      free_isSome hshows.holds (by omega) haddress hfree
    obtain ⟨s₂, hf⟩ := Option.isSome_iff_exists.mp hfreed
    exact Or.inl (Option.isSome_iff_exists.mpr
      ⟨_, (h.realloc_eq_some hne).mpr ⟨s₁, hm, fun h0 => absurd h0 hptr, hf⟩⟩)

end Returns

/-! ### A source with one region -/

/-- A page source that lends one region at a time. -/
def oneRegion : PageSource (Multiset PageRange) where
  liballocAlloc n lent mem :=
    if lent = 0 ∧ n.toNat ≤ 256 then some (0x100000, {⟨0x100000, n⟩}, mem) else some (0, lent, mem)
  liballocFree base n lent mem :=
    if ⟨base, n⟩ ∈ lent then some (lent.erase ⟨base, n⟩, mem) else none

def OneLent (p ranges : Multiset PageRange) : Prop :=
  p = ranges ∧ (p = 0 ∨ ∃ n : Word, n.toNat ≤ 256 ∧ p = {⟨0x100000, n⟩})

theorem oneRegion_honest : oneRegion.Honest OneLent where
  alloc := by
    rintro n p mem base p' mem' ranges ⟨rfl, hone⟩ hcall
    dsimp only [oneRegion] at hcall
    split at hcall
    · next hfits =>
      obtain ⟨rfl, rfl, rfl⟩ : (0x100000 : Word) = base ∧ {⟨0x100000, n⟩} = p' ∧ mem = mem' := by
        simpa using hcall
      obtain ⟨rfl, hn⟩ := hfits
      refine ⟨fun _ _ _ _ _ => rfl, Or.inr ⟨by decide, ?_, fun r hr => absurd hr (by simp), rfl,
        Or.inr ⟨n, hn, rfl⟩⟩⟩
      change 0x100000 + 4096 * n.toNat ≤ 2 ^ 32
      omega
    · obtain ⟨rfl, rfl, rfl⟩ : (0 : Word) = base ∧ p = p' ∧ mem = mem' := by simpa using hcall
      exact ⟨fun _ _ _ _ _ => rfl, Or.inl ⟨rfl, rfl, hone⟩⟩
  free := by
    rintro r p mem p' mem' ranges ⟨rfl, h0 | ⟨n, -, hone⟩⟩ hcall
    · exact absurd h0 (Multiset.cons_ne_zero)
    · obtain ⟨rfl, rfl⟩ := (Multiset.singleton_eq_cons_iff _).mp hone.symm
      obtain ⟨rfl, rfl⟩ : (0 : Multiset PageRange) = p' ∧ mem = mem' := by
        simpa [oneRegion] using hcall
      exact ⟨fun _ hr => absurd hr (by simp), rfl, Or.inl rfl⟩

theorem oneRegion_alloc (n : Word) (p : Multiset PageRange) (mem : Memory) :
    (oneRegion.liballocAlloc n p mem).isSome := by
  dsimp only [oneRegion]
  split <;> rfl

theorem oneRegion_free (r : PageRange) (p : Multiset PageRange) (mem : Memory)
    (ranges : Multiset PageRange) (h : OneLent p (r ::ₘ ranges)) :
    (oneRegion.liballocFree r.base r.pages p mem).isSome := by
  dsimp only [oneRegion]
  rw [if_pos]
  · rfl
  · rw [h.1]
    exact Multiset.mem_cons_self r ranges

/-- An allocator that was not used, and memory that is clear. -/
def blank : Allocator (Multiset PageRange) where
  mem _ := 0
  pages := 0
  flags := ⟨true, []⟩
  freePages _ := 0
  completePages _ := 0
  initialized := 0

theorem calloc_oneRegion :
    ∃ s', blank.calloc oneRegion (2 ^ 32 + 1) 3 1 = some (0x100020, s') := by
  have hfst : (blank.calloc oneRegion (2 ^ 32 + 1) 3 1).map Prod.fst = some 0x100020 := by
    decide +kernel
  obtain ⟨⟨p, s'⟩, hc, rfl⟩ := Option.map_eq_some_iff.mp hfst
  exact ⟨s', hc⟩

theorem free_oneRegion {s₁ : Allocator (Multiset PageRange)}
    (hc : blank.calloc oneRegion (2 ^ 32 + 1) 3 1 = some (0x100020, s₁)) :
    ∃ s', s₁.free oneRegion (2 ^ 32 + 1) 0x100020 = some s' := by
  obtain ⟨-, U, hU⟩ := (AllocatorStep.calloc hc).refines oneRegion_honest (by decide)
    (.start rfl ⟨rfl, Or.inl rfl⟩) ⟨show (3 * 1 : Word).toNat + 32 < 2 ^ 32 by decide, trivial⟩
  have hobj : AllocatorCall.after (fun _ => none) (.calloc 3 1 0x100020) 0x100020 =
      some (List.replicate 3 (some 0)) := rfl
  obtain ⟨b, V, rfl, hb, hne⟩ := hU.exists_cons hobj
  rw [← hb] at hne ⊢
  exact Option.isSome_iff_exists.mp (free_isSome hU.holds (by decide) hne oneRegion_free)

/-- Two objects, the second in what is left of the region of the first. -/
def twoCalls : List AllocatorCall := [.calloc 3 1 0x100020, .malloc 40000 0x100043]

theorem twoCalls_run :
    ∃ s', Run (AllocatorStep oneRegion OneLent (2 ^ 32 + 1)) blank twoCalls s' := by
  obtain ⟨s₁, hc⟩ := calloc_oneRegion
  have hfst : ((blank.calloc oneRegion (2 ^ 32 + 1) 3 1).bind fun found =>
      found.2.malloc oneRegion (2 ^ 32 + 1) 40000).map Prod.fst = some 0x100043 := by
    decide +kernel
  rw [hc, Option.bind_some] at hfst
  obtain ⟨⟨p, s'⟩, hm, rfl⟩ := Option.map_eq_some_iff.mp hfst
  exact ⟨s', .cons (.calloc hc) (.single (.malloc hm))⟩

theorem twoCalls_asked :
    Along AllocatorCall.after AllocatorCall.Asked (fun _ => none) twoCalls :=
  ⟨⟨show (3 * 1 : Word).toNat + 32 < 2 ^ 32 by decide, trivial⟩,
    ⟨show (40000 : Word).toNat + 32 < 2 ^ 32 by decide, trivial⟩, trivial⟩

/-! ### What holds of every run -/

/-- **A run**: as long as what is asked for is in order, it is granted, and the objects are
those after the calls. -/
theorem Represents.run {calls : List AllocatorCall} {objs : Objects Word Byte}
    (h : Represents lent s objs) (hsrc : src.Honest lent) (hfuel : 2 ^ 32 < fuel)
    (hrun : Run (AllocatorStep src lent fuel) s calls s')
    (hask : Along AllocatorCall.after AllocatorCall.Asked objs calls) :
    Along AllocatorCall.after AllocatorCall.Granted objs calls ∧
      Represents lent s' (calls.foldl AllocatorCall.after objs) :=
  hrun.guarantee (fun _ _ _ _ hstep h hask => hstep.refines hsrc hfuel h hask) h hask

section Run

variable {calls : List AllocatorCall} (hsrc : src.Honest lent) (hfuel : 2 ^ 32 < fuel)
  (hrun : Run (AllocatorStep src lent fuel) s calls s') (hinit : s.initialized = 0)
  (hlent : lent s.pages 0)
  (hask : Along AllocatorCall.after AllocatorCall.Asked (fun _ => none) calls)

include hsrc hfuel hrun hinit hlent hask

/-- **Where the objects lie**: apart from each other, and in pages that are lent. -/
theorem live_objects_in_place :
    Objects.Apart RangesApart (calls.foldl AllocatorCall.after fun _ => none) ∧
      ∃ ranges, lent s'.pages ranges ∧
        ∀ p bytes, calls.foldl AllocatorCall.after (fun _ => none) p = some bytes →
          p ≠ 0 ∧ ∃ r ∈ ranges, r.start ≤ p.toNat ∧ p.toNat + bytes.length ≤ r.stop := by
  obtain ⟨hgrant, U, hU⟩ := (Represents.start hinit hlent).run hsrc hfuel hrun hask
  constructor
  · have hevents := (Along.map (f := ObjectEvent.after) (g := AllocatorCall.event)).mpr hgrant
    have hapart := Objects.apart_of_granted (fun _ _ _ _ => Or.symm) hevents
      (fun _ _ _ _ _ hp => by cases hp)
    rwa [List.foldl_map] at hapart
  · exact Represents.in_place ⟨U, hU⟩

omit hsrc hfuel hrun hinit hlent hask in
theorem live_objects_in_place_sample :
    ∃ s', Run (AllocatorStep oneRegion OneLent (2 ^ 32 + 1)) blank twoCalls s' ∧
      RangesApart 0x100020 3 0x100043 40000 ∧ ∃ ranges, OneLent s'.pages ranges ∧
        (∃ r ∈ ranges, r.start ≤ 0x100020 ∧ 0x100020 + 3 ≤ r.stop) ∧
        ∃ r ∈ ranges, r.start ≤ 0x100043 ∧ 0x100043 + 40000 ≤ r.stop := by
  obtain ⟨s', hrun⟩ := twoCalls_run
  obtain ⟨hapart, ranges, hranges, hin⟩ := live_objects_in_place oneRegion_honest (by decide)
    hrun rfl ⟨rfl, Or.inl rfl⟩ twoCalls_asked
  have hfirst : twoCalls.foldl AllocatorCall.after (fun _ => none) 0x100020 =
      some (List.replicate 3 (some 0)) := rfl
  have hsecond : twoCalls.foldl AllocatorCall.after (fun _ => none) 0x100043 =
      some (List.replicate 40000 none) := rfl
  have hpair := hapart _ _ _ _ (by decide) hfirst hsecond
  have hfirstIn := (hin _ _ hfirst).2
  have hsecondIn := (hin _ _ hsecond).2
  rw [List.length_replicate] at hfirstIn hsecondIn
  rw [List.length_replicate, List.length_replicate] at hpair
  exact ⟨s', hrun, hpair, ranges, hranges, hfirstIn, hsecondIn⟩

/-- **Everything given up**: when no object is left, each region is one free block again, and
there are not more than five of them in each of the 24 lists that are used. -/
theorem heap_coalesces_when_empty
    (hdone : ∀ p, calls.foldl AllocatorCall.after (fun _ => none) p = none) :
    ∃ regions bins, HeapOk lent s'.initLists regions bins ∧ regions.length ≤ 5 * 24 ∧
      ∀ R ∈ regions, ∃ b, b.Free ∧ R.blocks = [b] := by
  obtain ⟨-, U, hU⟩ := (Represents.start hinit hlent).run hsrc hfuel hrun hask
  obtain ⟨regions, bins, hok, rfl⟩ := hU.holds.ordered
  have hwhole : ∀ R ∈ regions, ∃ b, b.Free ∧ R.blocks = [b] := by
    intro R hR
    refine R.whole_of_free fun b hb => ?_
    by_contra hused
    have hmem : b ∈ allBlocks regions := List.mem_flatten_of_mem (List.mem_map_of_mem hR) hb
    obtain ⟨-, bytes, hbytes, -⟩ := hU.object b (mem_usedOf.mpr ⟨hmem, hused⟩)
    rw [hdone] at hbytes
    cases hbytes
  exact ⟨regions, bins, hok, hok.length_le hwhole, hwhole⟩

omit hsrc hfuel hrun hinit hlent hask in
theorem heap_coalesces_when_empty_sample :
    ∃ s' regions bins, HeapOk OneLent (Allocator.initLists s') regions bins ∧
      regions.length ≤ 5 * 24 ∧ ∀ R ∈ regions, ∃ b, b.Free ∧ R.blocks = [b] := by
  obtain ⟨s₁, hc⟩ := calloc_oneRegion
  obtain ⟨s', hf⟩ := free_oneRegion hc
  refine ⟨s', heap_coalesces_when_empty oneRegion_honest (by decide)
    (.cons (.calloc hc) (.cons (.free hf) (.nil s'))) rfl ⟨rfl, Or.inl rfl⟩
    ⟨⟨show (3 * 1 : Word).toNat + 32 < 2 ^ 32 by decide, trivial⟩, ⟨trivial, _, rfl⟩, trivial⟩
    ?_⟩
  intro p
  change Function.update (Function.update (fun _ => none) 0x100020 _) 0x100020 none p = none
  rw [Function.update_idem]
  exact congrFun (Function.update_eq_self 0x100020 fun _ => none) p

end Run

end MVK
