import MVK.PciScan

/-!
# Scanning a tree of buses

`check_bus` on its own, from any bus and with any list to begin with.  When the bridges
below the bus form a tree, the nested scans add each function once, after everything that
is behind it, and keep what was in the list before.

## Main definitions

* `BridgeTree` — the bridges below a bus form a tree.
* `Room` — `realloc` has memory for a block.

## Main results

* `foldlM_appendDevice_ok` — entries are added to any list, while there is room.
* `check_bus_enumerates` — **`check_bus` enumerates a tree.**
-/

namespace MVK

open PostOrder Relation

/-- Each bus below `bus` is the secondary bus of one of the bridges there, and no bridge
leads back to `bus`. -/
structure BridgeTree (cfg : ConfigSpace) (bus : Byte) : Prop where
  parent : ∀ x y below, Visible cfg x → Visible cfg y →
    Reaches (busFunctions cfg) (bridgeTo cfg) bus x.bus →
    Reaches (busFunctions cfg) (bridgeTo cfg) bus y.bus →
    bridgeTo cfg x = some below → bridgeTo cfg y = some below → x = y
  root : ∀ x, Visible cfg x → Reaches (busFunctions cfg) (bridgeTo cfg) bus x.bus →
    bridgeTo cfg x ≠ some bus

/-- `realloc` succeeds up to a size in bytes.  No block is larger than memory. -/
structure Room (realloc : Realloc) (bytes : ℕ) : Prop where
  lt : bytes < 2 ^ 32
  succeeds : ∀ block size, size.toNat ≤ bytes → realloc block size ≠ none

/-- The hierarchy below the root of a tree is a forest. -/
theorem BridgeTree.forest {cfg : ConfigSpace} {bus : Byte} (hT : BridgeTree cfg bus) :
    Forest (busFunctions cfg) (bridgeTo cfg) bus := by
  have hparent : ∀ a b x y c, Reaches (busFunctions cfg) (bridgeTo cfg) bus a →
      Reaches (busFunctions cfg) (bridgeTo cfg) bus b → x ∈ busFunctions cfg a →
      y ∈ busFunctions cfg b → bridgeTo cfg x = some c → bridgeTo cfg y = some c → x = y := by
    intro a b x y c ha hb hx hy
    obtain ⟨rfl, hvx⟩ := mem_busFunctions.mp hx
    obtain ⟨rfl, hvy⟩ := mem_busFunctions.mp hy
    exact hT.parent x y c hvx hvy ha hb
  refine ⟨fun m hm => acyclic_of_unique ?_ ?_ hm, hparent, ?_, fun _ _ => nodup_busFunctions⟩
  · rintro a b c ha hb ⟨x, hx, hxc⟩ ⟨y, hy, hyc⟩
    obtain rfl := hparent a b x y c ha hb hx hy hxc hyc
    rw [← (mem_busFunctions.mp hx).1, (mem_busFunctions.mp hy).1]
  · rintro a ha ⟨x, hx, hxbus⟩
    obtain ⟨rfl, hv⟩ := mem_busFunctions.mp hx
    exact hT.root x hv ha hxbus
  · intro a b x _ _ hx hx'
    rw [← (mem_busFunctions.mp hx).1, (mem_busFunctions.mp hx').1]

section Append

variable {realloc : Realloc} {bytes : ℕ}

/-- One entry more, while there is room. -/
theorem appendDevice_ok (hkeeps : ReallocKeeps realloc) (hroom : Room realloc bytes)
    {l : List PciDevice} (hfit : 3 * (l.length + 1) ≤ bytes) (x : PciDevice) :
    appendDevice realloc (.of l) x = .ok (.of (l ++ [x])) := by
  have hlt := hroom.lt
  have hsize : ((BitVec.ofNat 32 l.length + 1) * 3).toNat ≤ bytes := by
    rw [BitVec.toNat_mul, BitVec.toNat_add, BitVec.toNat_ofNat, toNat_one_word,
      show (3 : Word).toNat = 3 from rfl]
    omega
  cases hrun : appendDevice realloc (.of l) x with
  | ok st => rw [appendDevice_of hkeeps (by omega) hrun]
  | error err =>
    unfold appendDevice PciList.of at hrun
    dsimp only at hrun
    split at hrun
    · next hnone => exact absurd hnone (hroom.succeeds _ _ hsize)
    · exact absurd hrun (by simp)

/-- Entries are added to any list, while there is room. -/
theorem foldlM_appendDevice_ok (hkeeps : ReallocKeeps realloc) (hroom : Room realloc bytes)
    (xs : List PciDevice) {l : List PciDevice} (hfit : 3 * (l.length + xs.length) ≤ bytes) :
    xs.foldlM (appendDevice realloc) (.of l) = .ok (.of (l ++ xs)) := by
  induction xs generalizing l with
  | nil =>
    rw [List.append_nil]
    rfl
  | cons x xs ih =>
    rw [List.length_cons] at hfit
    have hrest := @ih (l ++ [x]) (by rw [List.length_append, List.length_singleton]; omega)
    rw [List.foldlM_cons, appendDevice_ok hkeeps hroom (by omega)]
    change xs.foldlM (appendDevice realloc) (.of (l ++ [x])) = _
    rw [hrest, List.append_assoc, List.singleton_append]

end Append

/-- **`check_bus` enumerates a tree of buses.**  From a bus below which the bridges form a
tree it finds the functions that are visible on the bus and on the buses below, each once,
and a bridge after all functions behind it; and with any list to begin with it returns that
list with these functions added, if `realloc` has room for it. -/
theorem check_bus_enumerates {cfg : ConfigSpace} {bus : Byte} (hT : BridgeTree cfg bus) :
    ∃ found : List PciDevice, found.Nodup ∧
      (∀ x, x ∈ found ↔
        Visible cfg x ∧ Reaches (busFunctions cfg) (bridgeTo cfg) bus x.bus) ∧
      (∀ x y below, x ∈ found → bridgeTo cfg x = some below → Visible cfg y →
        Reaches (busFunctions cfg) (bridgeTo cfg) below y.bus → [y, x].Sublist found) ∧
      ∃ depth, ∀ (realloc : Realloc) (l : List PciDevice), ReallocKeeps realloc →
        Room realloc (3 * (l.length + found.length)) →
          checkBus cfg realloc depth bus (.of l) = .ok (.of (l ++ found)) := by
  have hfinite := finite_byte
  have hF := hT.forest
  obtain ⟨depth, found, hscan⟩ := exists_scan_iff.mpr hF.acyclic
  have hmem : ∀ x, x ∈ found ↔
      Visible cfg x ∧ Reaches (busFunctions cfg) (bridgeTo cfg) bus x.bus := by
    intro x
    rw [mem_scan hscan]
    constructor
    · rintro ⟨m, hm, hx⟩
      obtain ⟨rfl, hv⟩ := mem_busFunctions.mp hx
      exact ⟨hv, hm⟩
    · rintro ⟨hv, hm⟩
      exact ⟨x.bus, hm, mem_busFunctions.mpr ⟨rfl, hv⟩⟩
  refine ⟨found, nodup_scan hF hscan, hmem, ?_, depth, ?_⟩
  · intro x y below hx hbridge hy hreach
    obtain ⟨hv, hm⟩ := (hmem x).mp hx
    exact pair_sublist_scan hscan hm (mem_busFunctions.mpr ⟨rfl, hv⟩) hbridge hreach
      (mem_busFunctions.mpr ⟨rfl, hy⟩)
  · intro realloc l hkeeps hroom
    rw [checkBus, checkBusWith_eq_walk, walk_of_scan hscan]
    exact foldlM_appendDevice_ok hkeeps hroom found le_rfl

/-- A bridge from bus 0 to bus 1, on which nothing answers. -/
def configuredBridge : ConfigSpace := lonelyFunction 0x04 0x06 0x01 0x01

theorem configuredBridge_tree : BridgeTree configuredBridge 0 where
  parent x y _ hx hy _ _ _ _ := by
    rw [eq_of_visible_lonelyFunction hx, eq_of_visible_lonelyFunction hy]
  root x hx _ := by
    rw [eq_of_visible_lonelyFunction hx]
    decide

theorem check_bus_enumerates_sample :
    ∃ found : List PciDevice, found.Nodup ∧ ⟨0, 0, 0⟩ ∈ found ∧
      ∃ depth, ∀ l : List PciDevice, 3 * (l.length + found.length) < 2 ^ 32 →
        checkBus configuredBridge roomyRealloc depth 0 (.of l) = .ok (.of (l ++ found)) := by
  obtain ⟨found, hnodup, hmem, -, depth, hrun⟩ := check_bus_enumerates configuredBridge_tree
  exact ⟨found, hnodup, (hmem _).mpr ⟨by decide, ReflTransGen.refl⟩, depth, fun l hfit =>
    hrun roomyRealloc l roomyRealloc_keeps
      ⟨hfit, fun block size _ => roomyRealloc_ne_none block size⟩⟩

end MVK
