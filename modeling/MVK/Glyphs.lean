import MVK.Screen

/-!
# Characters and colours on the screen

A cell holds the character in its low byte and the attribute in its high byte.  The
macro that builds it converts a signed `char`, so a character from `0x80` on sets every
bit of the attribute.  The layout of the characters themselves says which of them are
still on the screen, and so what the screen should show.

## Main definitions

* `cellChar`, `cellAttribute` — the two bytes of a cell.
* `charText` — the layout of the characters with their colours.
* `Survives` — each cell shows what was written there.
* `VisibleAscii` — the characters on the screen that are not mangled.

## Main results

* `cellAttribute_vgaEntry` — what the macro makes of a colour.
* `characters_survive_iff` — **exactly when characters and colours survive.**
-/

namespace MVK

open Scrollback Translation

/-- The character of a cell. -/
def cellChar (w : BitVec 16) : BitVec 8 := w.setWidth 8

/-- The attribute of a cell. -/
def cellAttribute (w : BitVec 16) : BitVec 8 := (w >>> 8).setWidth 8

/-- The macro keeps the character. -/
theorem cellChar_vgaEntry (c color : BitVec 8) : cellChar (vgaEntry c color) = c := by
  apply BitVec.eq_of_getLsbD_eq
  intro i hi
  rw [cellChar, vgaEntry, BitVec.getLsbD_setWidth, BitVec.getLsbD_or, BitVec.getLsbD_signExtend,
    BitVec.getLsbD_shiftLeft]
  simp [hi, show i < 16 by omega]

/-- The attribute is the colour with the sign of the character in every bit. -/
theorem cellAttribute_vgaEntry (c color : BitVec 8) :
    cellAttribute (vgaEntry c color) = if c.msb then 0xFF else color := by
  apply BitVec.eq_of_getLsbD_eq
  intro i hi
  rw [cellAttribute, vgaEntry, BitVec.getLsbD_setWidth, BitVec.getLsbD_ushiftRight,
    BitVec.getLsbD_or, BitVec.getLsbD_signExtend, BitVec.getLsbD_shiftLeft,
    BitVec.getLsbD_setWidth]
  cases hm : c.msb with
  | true =>
    rw [if_pos rfl, show (0xFF : BitVec 8) = BitVec.allOnes 8 from rfl, BitVec.getLsbD_allOnes]
    simp [hi, show 8 + i < 16 by omega]
  | false =>
    rw [if_neg Bool.false_ne_true]
    simp [hi, show 8 + i < 16 by omega, show i < 16 by omega]

/-- A colour survives when the character is ASCII, or the colour has every bit set. -/
theorem cellAttribute_eq_iff (c color : BitVec 8) :
    cellAttribute (vgaEntry c color) = color ↔ c.toNat < 0x80 ∨ color = 0xFF := by
  rw [cellAttribute_vgaEntry, BitVec.msb_eq_decide]
  by_cases hc : 2 ^ (8 - 1) ≤ c.toNat
  · rw [decide_eq_true hc, if_pos rfl]
    exact ⟨fun h => Or.inr h.symm, fun h => (h.resolve_left (by omega)).symm⟩
  · rw [decide_eq_false hc, if_neg (by decide)]
    exact ⟨fun _ => Or.inl (by omega), fun _ => rfl⟩

/-! ### The layout of the characters -/

/-- A character with its colour as an input of the layout. -/
def charGlyph (c : BitVec 8 × BitVec 8) : Option (BitVec 8 × BitVec 8) :=
  if c.1 = 0x0A then none else some c

/-- The layout of the characters with their colours. -/
def charText (width : ℕ) (cs : List (BitVec 8 × BitVec 8)) : Text (BitVec 8 × BitVec 8) :=
  Text.layout width (cs.map charGlyph)

/-- The layout of the cells is that of the characters. -/
theorem layout_glyph_eq (width : ℕ) (cs : List (BitVec 8 × BitVec 8)) :
    Text.layout width (cs.map glyph) =
      (charText width cs).map fun c => vgaEntry c.1 c.2 := by
  rw [charText, Text.map_layout, List.map_map]
  congr 1
  refine List.map_congr_left ?_
  intro c _
  rw [glyph, Function.comp_apply, charGlyph]
  split <;> rfl

theorem mem_of_charText {width height : ℕ} {cs : List (BitVec 8 × BitVec 8)} {y x : ℕ}
    {c : BitVec 8 × BitVec 8} (h : (charText width cs).cell? height y x = some c) : c ∈ cs := by
  have hmem := Text.mem_lines_layout (Text.mem_of_cell?_eq_some h)
  obtain ⟨c', hc', heq⟩ := List.mem_map.mp hmem
  unfold charGlyph at heq
  split at heq
  · exact absurd heq (by simp)
  · rwa [← Option.some.inj heq]

/-- Each cell of the screen decodes to the character and the colour that the layout has
there, or is blank where the layout has nothing. -/
def Survives (s : Console) (text : Text (BitVec 8 × BitVec 8)) : Prop :=
  ∀ y x, y < s.term.height.toNat → x < s.term.width.toNat →
    match text.cell? s.term.height.toNat y x with
    | some c => cellChar (s.term.cell s.mem y x) = c.1 ∧
        cellAttribute (s.term.cell s.mem y x) = c.2
    | none => s.term.cell s.mem y x = blankEntry

/-- Every attribute on the screen is in `C`, or the default colour. -/
def AttributesIn (C : Set (BitVec 8)) (s : Console) : Prop :=
  ∀ y x, y < s.term.height.toNat → x < s.term.width.toNat →
    cellAttribute (s.term.cell s.mem y x) ∈ C ∨
      cellAttribute (s.term.cell s.mem y x) = terminalDefaultColor

/-- Every character that is still on the screen is below `0x80`, or was written in the
colour `0xFF`. -/
def VisibleAscii (width height : ℕ) (cs : List (BitVec 8 × BitVec 8)) : Prop :=
  ∀ y x c, y < height → x < width → (charText width cs).cell? height y x = some c →
    c.1.toNat < 0x80 ∨ c.2 = 0xFF

/-- The cells of the screen, from the layout of the characters. -/
theorem cell_of_charText {mbi : FramebufferInfo} {mem : Memory} {s : Console}
    (hb : TextBuffer mbi) (hsetup : terminalSetup mbi mem = .ok s)
    (cs : List (BitVec 8 × BitVec 8)) :
    (terminalPutchars cs s).term.width = mbi.framebufferWidth ∧
    (terminalPutchars cs s).term.height = mbi.framebufferHeight ∧
    ∀ y x, y < mbi.framebufferHeight.toNat → x < mbi.framebufferWidth.toNat →
      (terminalPutchars cs s).term.cell (terminalPutchars cs s).mem y x =
        (((charText mbi.framebufferWidth.toNat cs).cell? mbi.framebufferHeight.toNat y x).map
          fun c => vgaEntry c.1 c.2).getD blankEntry := by
  obtain ⟨hg, hw, hh, hrenders⟩ := terminalSetup_renders hb hsetup
  have hrun := hrenders.putchars hg cs
  have hshows := hrun.shows
  refine ⟨hrun.static.width.trans hw, hrun.static.height.trans hh, ?_⟩
  intro y x hy hx
  rw [hw, hh] at hshows
  have htext : (cs.map glyph).foldl (Text.step mbi.framebufferWidth.toNat) Text.empty =
      (charText mbi.framebufferWidth.toNat cs).map fun c => vgaEntry c.1 c.2 :=
    layout_glyph_eq _ cs
  rw [htext] at hshows
  rw [← Text.cell?_map]
  exact hshows.cell y x hy hx

/-- **When characters and colours survive.**  From the cleared screen, after any
characters in any colours, every cell of the screen decodes to what was written there,
and no attribute shows that was not written, exactly when each character that is still
on the screen is below `0x80` or in the colour `0xFF`. -/
theorem characters_survive_iff {mbi : FramebufferInfo} {mem : Memory} {s : Console}
    (hb : TextBuffer mbi) (hsetup : terminalSetup mbi mem = .ok s)
    (cs : List (BitVec 8 × BitVec 8)) :
    (Survives (terminalPutchars cs s) (charText mbi.framebufferWidth.toNat cs) ∧
      ∀ C : Set (BitVec 8), (∀ c ∈ cs, c.2 ∈ C) → AttributesIn C (terminalPutchars cs s)) ↔
    VisibleAscii mbi.framebufferWidth.toNat mbi.framebufferHeight.toNat cs := by
  obtain ⟨hw, hh, hcell⟩ := cell_of_charText hb hsetup cs
  unfold Survives AttributesIn
  rw [hw, hh]
  constructor
  · -- the cell of a character on the screen is the macro's, so its colour was kept
    rintro ⟨hsurv, -⟩ y x c hy hx hc
    have hdec := hsurv y x hy hx
    rw [hc] at hdec
    rw [← cellAttribute_eq_iff]
    have hattr := hdec.2
    rwa [hcell y x hy hx, hc] at hattr
  · intro hvis
    constructor
    · intro y x hy hx
      rw [hcell y x hy hx]
      cases hc : (charText mbi.framebufferWidth.toNat cs).cell?
          mbi.framebufferHeight.toNat y x with
      | none => rfl
      | some c =>
        exact ⟨cellChar_vgaEntry c.1 c.2, (cellAttribute_eq_iff c.1 c.2).mpr (hvis y x c hy hx hc)⟩
    · intro C hC y x hy hx
      rw [hcell y x hy hx]
      cases hc : (charText mbi.framebufferWidth.toNat cs).cell?
          mbi.framebufferHeight.toNat y x with
      | none => exact Or.inr (by decide)
      | some c =>
        -- what is on the screen was written, in a colour of `C`
        have hattr := (cellAttribute_eq_iff c.1 c.2).mpr (hvis y x c hy hx hc)
        refine Or.inl ?_
        rw [Option.map_some, Option.getD_some, hattr]
        exact hC c (mem_of_charText hc)

/-- The character `0x80` in light grey shows in the attribute `0xFF`. -/
theorem high_character_loses_colour :
    ∃ s, terminalSetup sampleBuffer (fun _ => 0) = .ok s ∧
      cellAttribute ((terminalPutchars [(0x80, 0x07)] s).term.cell
        (terminalPutchars [(0x80, 0x07)] s).mem 0 0) = 0xFF ∧
      ¬ Survives (terminalPutchars [(0x80, 0x07)] s) (charText 80 [(0x80, 0x07)]) := by
  have hsetup := @terminalSetup_ok sampleBuffer (by decide) rfl fun _ => 0
  obtain ⟨hw, hh, hcell⟩ := cell_of_charText sampleBuffer_textBuffer hsetup [(0x80, 0x07)]
  have hattr := congrArg cellAttribute (hcell 0 0 (by decide) (by decide))
  refine ⟨_, hsetup, hattr.trans (by decide), ?_⟩
  intro hsurv
  unfold Survives at hsurv
  rw [hw, hh] at hsurv
  have hdec : _ ∧ _ = (0x07 : BitVec 8) := hsurv 0 0 (by decide) (by decide)
  rw [hattr] at hdec
  exact absurd hdec.2 (by decide)

/-- A text of more than a screen: 2001 characters, a line break and one more. -/
@[irreducible] def overfullText : List (BitVec 8 × BitVec 8) :=
  List.replicate 2001 (0x41, 0x1F) ++ [(0x0A, 0x1F), (0x42, 0x0F)]

theorem visibleAscii_overfullText (w h : ℕ) : VisibleAscii w h overfullText := by
  intro y x c _ _ hc
  have hmem := mem_of_charText hc
  rw [overfullText, List.mem_append, List.mem_replicate, List.mem_pair] at hmem
  rcases hmem with ⟨-, rfl⟩ | rfl | rfl
  · exact Or.inl (by decide)
  · exact Or.inl (by decide)
  · exact Or.inl (by decide)

theorem characters_survive_iff_sample :
    ∃ s, terminalSetup sampleBuffer (fun _ => 0) = .ok s ∧
      Survives (terminalPutchars overfullText s) (charText 80 overfullText) := by
  obtain ⟨s, hsetup⟩ : ∃ s, terminalSetup sampleBuffer (fun _ => 0) = .ok s :=
    ⟨_, terminalSetup_ok (by decide) rfl fun _ => 0⟩
  refine ⟨s, hsetup, ?_⟩
  exact ((characters_survive_iff sampleBuffer_textBuffer hsetup overfullText).mpr
    (visibleAscii_overfullText _ _)).1

end MVK
