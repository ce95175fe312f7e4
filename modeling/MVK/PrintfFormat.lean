import Mathlib.Data.List.DropRight
import MVK.Lib.Runs
import MVK.Printf

/-!
# Every format

`printf` on formats of any kind: with unknown conversions, with several `%` in a row, with
a `%` at the end.  The loop goes over a format piece by piece, where a piece is an ordinary
character or a `%` with whatever follows it; so a run over a format is a run of these steps,
and what each of them does to the output, the count and the position carries over.

## Main definitions

* `printfLog`, `printfReads` — the loop, with the indices at which it reads the format.
* `Supplied` — there are arguments for all conversions of a format.
* `Advances` — one turn of the loop.
* `trailingPercents`, `ordinaryChars`, `escape` — what decides whether `printf` is right.

## Main results

* `exists_run` — **the pieces of a format are run one after the other.**
* `printf_stays_iff` — **exactly when the format is not read past its end.**
* `printf_counts_iff` — **exactly when the count is right.**
* `printf_escape_iff` — **exactly when an escaped text is printed.**
-/

namespace MVK

open Transition

variable {strings : Strings}

/-! ### The indices that are read -/

/-- `printfLoop` from index `i` on, with the indices at which `format` is read. -/
def printfLog (strings : Strings) : List Byte → ℕ → Printf → List ℕ × Option Printf
  | [], i, _ => ([i], none)
  | c :: format, i, st =>
    if c = 0 then ([i], some st)
    else if c = byteOf '%' then
      match format with
      | [] => ([i, i + 1], none)
      | d :: format =>
        match convert strings d st with
        | none => ([i, i + 1], none)
        | some st => (printfLog strings format (i + 2) st).map (fun is => i :: (i + 1) :: is) id
    else (printfLog strings format (i + 1) (st.putchar (c.signExtend 32))).map (i :: ·) id

/-- The indices at which a call of `printf` reads `format`. -/
def printfReads (strings : Strings) (format : List Byte) (args : List Word)
    (buf : Vector Byte 128) : List ℕ :=
  (printfLog strings format 0 { output := [], characters := 0, args, buf := buf.toList }).1

/-- It is the same loop. -/
theorem printfLog_snd (format : List Byte) (i : ℕ) (st : Printf) :
    (printfLog strings format i st).2 = printfLoop strings format st := by
  fun_induction printfLog strings format i st with
  | case1 => rfl
  | case2 => rw [printfLoop_nul]
  | case3 i st hnul =>
    rw [printfLoop.eq_def]
    dsimp only
    rw [if_neg hnul, if_pos rfl]
  | case4 i st d format hconvert hnul =>
    rw [printfLoop.eq_def]
    dsimp only
    rw [if_neg hnul, if_pos rfl, hconvert]
    rfl
  | case5 i st d format st' hconvert hnul ih =>
    rw [printfLoop.eq_def]
    dsimp only
    rw [if_neg hnul, if_pos rfl, hconvert]
    exact ih
  | case6 c format i st hnul hpercent ih =>
    rw [printfLoop_ordinary hnul hpercent]
    exact ih

/-- The loop reads where it stands. -/
theorem mem_printfLog (format : List Byte) (i : ℕ) (st : Printf) :
    i ∈ (printfLog strings format i st).1 := by
  rw [printfLog.eq_def]
  split
  · exact List.mem_singleton_self i
  · split
    · exact List.mem_singleton_self i
    · split
      · split
        · exact List.mem_cons_self
        · split
          · exact List.mem_cons_self
          · exact List.mem_cons_self
      · exact List.mem_cons_self

/-! ### One turn of the loop -/

/-- The loop advances over a piece of the format. -/
inductive Advances (strings : Strings) : Printf → List Byte → Printf → Prop
  | ordinary {char : Byte} {st : Printf} (nul : char ≠ 0) (percent : char ≠ byteOf '%') :
      Advances strings st [char] (st.putchar (char.signExtend 32))
  | conversion {c : Byte} {st st' : Printf} (h : convert strings c st = some st') :
      Advances strings st [byteOf '%', c] st'

theorem Advances.printfLoop {st st' : Printf} {piece : List Byte}
    (h : Advances strings st piece st') (format : List Byte) :
    printfLoop strings (piece ++ format) st = printfLoop strings format st' := by
  cases h with
  | ordinary nul percent => exact printfLoop_ordinary nul percent format st
  | conversion hconvert =>
    rw [List.cons_append, List.singleton_append, printfLoop.eq_def]
    dsimp only
    rw [if_neg (by decide), if_pos rfl, hconvert, Option.bind_eq_bind, Option.bind_some]

/-- The indices of the piece are read, and the loop goes on after them. -/
theorem Advances.reads {st st' : Printf} {piece : List Byte}
    (h : Advances strings st piece st') (format : List Byte) (i : ℕ) :
    (printfLog strings (piece ++ format) i st).1 =
      List.range' i piece.length ++ (printfLog strings format (i + piece.length) st').1 := by
  cases h with
  | ordinary nul percent =>
    rw [List.singleton_append, printfLog.eq_def]
    dsimp only
    rw [if_neg nul, if_neg percent]
    rfl
  | conversion hconvert =>
    rw [List.cons_append, List.singleton_append, printfLog.eq_def]
    dsimp only
    rw [if_neg (by decide), if_pos rfl, hconvert]
    rfl

theorem printfLoop_of_run {st st' : Printf} {pieces : List (List Byte)}
    (h : Run (Advances strings) st pieces st') (format : List Byte) :
    printfLoop strings (pieces.flatten ++ format) st = printfLoop strings format st' := by
  induction h with
  | nil st => rfl
  | cons hpiece _ ih => rw [List.flatten_cons, List.append_assoc, hpiece.printfLoop, ih]

theorem reads_of_run {st st' : Printf} {pieces : List (List Byte)}
    (h : Run (Advances strings) st pieces st') (format : List Byte) (i : ℕ) :
    (printfLog strings (pieces.flatten ++ format) i st).1 =
      List.range' i pieces.flatten.length ++
        (printfLog strings format (i + pieces.flatten.length) st').1 := by
  induction h generalizing i with
  | nil st => rfl
  | cons hpiece _ ih =>
    rw [List.flatten_cons, List.append_assoc, hpiece.reads, ih, List.length_append,
      ← List.range'_append_1, List.append_assoc, Nat.add_assoc]

/-! ### The pieces of a format -/

/-- The letters of the conversions that take an argument. -/
def conversionLetters : List Byte := ['d', 'i', 'u', 'x', 'X', 'p', 's', 'c'].map byteOf

theorem mem_conversionLetters {d : Byte} : d ∈ conversionLetters ↔
    d = byteOf 'd' ∨ d = byteOf 'i' ∨ d = byteOf 'u' ∨ d = byteOf 'x' ∨ d = byteOf 'X' ∨
      d = byteOf 'p' ∨ d = byteOf 's' ∨ d = byteOf 'c' := by
  simp [conversionLetters]

/-- The conversion of this letter takes an argument. -/
def takesArgument (d : Byte) : Bool := conversionLetters.contains d

/-- There is an argument for each conversion of the format, and a terminated string for
each `%s`. -/
def Supplied (strings : Strings) : List Byte → List Word → Prop
  | c :: d :: text, args =>
    if c = byteOf '%' then
      if takesArgument d then
        ∃ value rest, args = value :: rest ∧ (d = byteOf 's' → 0 ∈ strings value) ∧
          Supplied strings text rest
      else Supplied strings text args
    else Supplied strings (d :: text) args
  | [_], _ => True
  | [], _ => True

/-- The format ends in the `%` of a conversion without a letter. -/
def dangling : List Byte → Bool
  | c :: d :: text => if c = byteOf '%' then dangling text else dangling (d :: text)
  | [c] => c = byteOf '%'
  | [] => false

/-- A conversion that takes an argument is one of the supported ones. -/
theorem exists_directive {d : Byte} (hd : d ∈ conversionLetters) {value : Word}
    (hs : d = byteOf 's' → 0 ∈ strings value) :
    ∃ directive : Directive strings,
      directive.format = [byteOf '%', d] ∧ directive.args = [value] := by
  rcases mem_conversionLetters.mp hd with rfl | rfl | rfl | rfl | rfl | rfl | rfl | rfl
  · exact ⟨.d value, rfl, rfl⟩
  · exact ⟨.i value, rfl, rfl⟩
  · exact ⟨.u value, rfl, rfl⟩
  · exact ⟨.x value, rfl, rfl⟩
  · exact ⟨.X value, rfl, rfl⟩
  · exact ⟨.p value, rfl, rfl⟩
  · obtain ⟨text, rest, hat, hnul⟩ := List.eq_append_cons_of_mem (hs rfl)
    exact ⟨.s value ⟨text, rest, hat, hnul⟩, rfl, rfl⟩
  · exact ⟨.c value, rfl, rfl⟩

/-- Any other letter falls into the `default` branch. -/
theorem convert_of_notMem {d : Byte} (hd : d ∉ conversionLetters) (st : Printf) :
    convert strings d st = some st := by
  simp only [mem_conversionLetters, not_or] at hd
  obtain ⟨h1, h2, h3, h4, h5, h6, h7, h8⟩ := hd
  rw [convert, if_neg (by simp [h1, h2]), if_neg h3, if_neg h4, if_neg h5, if_neg h6, if_neg h7,
    if_neg h8]

/-- A piece more in front. -/
theorem exists_run_cons {st mid : Printf} {piece text tail : List Byte}
    (hpiece : Advances strings st piece mid)
    (hrest : ∃ pieces st', Run (Advances strings) mid pieces st' ∧
      text = pieces.flatten ++ tail) :
    ∃ pieces st', Run (Advances strings) st pieces st' ∧
      piece ++ text = pieces.flatten ++ tail := by
  obtain ⟨pieces, st', hrun, heq⟩ := hrest
  refine ⟨piece :: pieces, st', .cons hpiece hrun, ?_⟩
  rw [List.flatten_cons, List.append_assoc, ← heq]

/-- The run over a format whose conversions have their arguments, up to a dangling `%`. -/
theorem exists_run : ∀ (text : List Byte) {st : Printf}, 0 ∉ text →
    Supplied strings text st.args → st.buf.length = 128 →
      ∃ pieces st', Run (Advances strings) st pieces st' ∧
        text = pieces.flatten ++ if dangling text then [byteOf '%'] else []
  | [], st, _, _, _ => ⟨[], st, .nil st, rfl⟩
  | [c], st, hnul, _, _ => by
    by_cases hc : c = byteOf '%'
    · exact ⟨[], st, .nil st, by simp [dangling, hc]⟩
    · have hc0 : c ≠ 0 := fun h => hnul (by simp [h])
      exact ⟨[[c]], _, .single (.ordinary hc0 hc), by simp [dangling, hc]⟩
  | c :: d :: text, st, hnul, hargs, hbuf => by
    obtain ⟨hc, hrest⟩ := List.ne_and_not_mem_of_not_mem_cons hnul
    have htext := (List.ne_and_not_mem_of_not_mem_cons hrest).2
    rw [Supplied] at hargs
    rw [dangling]
    by_cases hpercent : c = byteOf '%'
    · subst hpercent
      rw [if_pos rfl] at hargs ⊢
      by_cases hd : takesArgument d
      · rw [if_pos hd] at hargs
        obtain ⟨value, args, hst, hstring, hsupplied⟩ := hargs
        obtain ⟨directive, hformat, hvalue⟩ :=
          exists_directive (List.contains_iff_mem.mp hd) hstring
        have hargs' : st.args = directive.args ++ args := by
          rw [hst, hvalue, List.singleton_append]
        obtain ⟨mid, hconvert, hputs⟩ := convert_directive directive hformat hargs' hbuf
        have hmid : mid.args = args := List.append_cancel_left (hputs.args.symm.trans hargs')
        have hrest := exists_run text htext (hmid ▸ hsupplied) (hputs.buf.trans hbuf)
        exact exists_run_cons (.conversion hconvert) hrest
      · -- an unknown letter takes nothing and prints nothing
        rw [if_neg hd] at hargs
        have hconvert := @convert_of_notMem strings d (mt List.contains_iff_mem.mpr hd) st
        exact exists_run_cons (.conversion hconvert) (exists_run text htext hargs hbuf)
    · rw [if_neg hpercent] at hargs ⊢
      have hrest' := @exists_run (d :: text) (st.putchar (c.signExtend 32)) hrest hargs hbuf
      exact exists_run_cons (.ordinary (Ne.symm hc) hpercent) hrest'

/-- The run of a call of `printf`, over a format that does not end in a dangling `%`. -/
theorem exists_complete_run {text : List Byte} {args : List Word} (htext : 0 ∉ text)
    (hargs : Supplied strings text args) (hdangling : dangling text = false)
    (buf : Vector Byte 128) :
    ∃ pieces st, text = pieces.flatten ∧
      Run (Advances strings) { output := [], characters := 0, args, buf := buf.toList }
        pieces st := by
  obtain ⟨pieces, st, hrun, heq⟩ := @exists_run strings text
    { output := [], characters := 0, args, buf := buf.toList } htext hargs buf.size_toArray
  rw [hdangling, if_neg (by decide), List.append_nil] at heq
  exact ⟨pieces, st, heq, hrun⟩

/-! ### Reading past the end -/

/-- How many `%` the format ends in. -/
def trailingPercents (text : List Byte) : ℕ :=
  (text.rtakeWhile fun c => c = byteOf '%').length

theorem trailingPercents_cons (c : Byte) (text : List Byte) :
    trailingPercents (c :: text) =
      if trailingPercents text = text.length then
        text.length + if c = byteOf '%' then 1 else 0
      else trailingPercents text := by
  simp only [trailingPercents, List.rtakeWhile, List.length_reverse, List.reverse_cons,
    List.takeWhile_append]
  split
  · by_cases hc : c = byteOf '%'
    · simp [hc]
    · simp [hc]
  · rfl

theorem trailingPercents_nil : trailingPercents [] = 0 := rfl

theorem trailingPercents_le (text : List Byte) : trailingPercents text ≤ text.length := by
  have hprefix := (List.takeWhile_prefix (l := text.reverse) fun c => c = byteOf '%').length_le
  rw [List.length_reverse] at hprefix
  rwa [trailingPercents, List.rtakeWhile, List.length_reverse]

/-- A `%` dangles when the format ends in an odd number of them. -/
theorem dangling_iff_odd : ∀ text : List Byte, dangling text ↔ Odd (trailingPercents text)
  | [] => by simp [dangling, trailingPercents_nil]
  | [c] => by
    by_cases hc : c = byteOf '%'
    · simp [dangling, trailingPercents_cons, trailingPercents_nil, hc]
    · simp [dangling, trailingPercents_cons, trailingPercents_nil, hc]
  | c :: d :: text => by
    have hle := trailingPercents_le text
    rw [dangling, trailingPercents_cons]
    by_cases hc : c = byteOf '%'
    · -- the pair adds two, or it is not part of the run at the end
      rw [if_pos hc, if_pos hc, dangling_iff_odd text, trailingPercents_cons, List.length_cons,
        Nat.odd_iff, Nat.odd_iff]
      split_ifs <;> omega
    · rw [if_neg hc, if_neg hc, dangling_iff_odd (d :: text), Nat.odd_iff, Nat.odd_iff]
      split_ifs <;> omega

/-- `printf` stays in its format and ends at the first NUL, which is at index `n`. -/
def StaysWithin (strings : Strings) (format : List Byte) (args : List Word)
    (buf : Vector Byte 128) (n : ℕ) : Prop :=
  (∀ i ∈ printfReads strings format args buf, i ≤ n) ∧
    (printfReads strings format args buf).getLast? = some n ∧
    ∃ st, printf strings format args buf = some st

/-- Without a dangling `%` the format is read up to its NUL. -/
theorem staysWithin_of_not_dangling {text : List Byte} {args : List Word} (htext : 0 ∉ text)
    (hargs : Supplied strings text args) (hdangling : dangling text = false) (rest : List Byte)
    (buf : Vector Byte 128) :
    StaysWithin strings (text ++ 0 :: rest) args buf text.length := by
  obtain ⟨pieces, st, heq, hrun⟩ := exists_complete_run htext hargs hdangling buf
  have hreads : printfReads strings (text ++ 0 :: rest) args buf =
      List.range' 0 text.length ++ [text.length] := by
    rw [printfReads, heq, reads_of_run hrun, Nat.zero_add, printfLog.eq_def]
    rfl
  refine ⟨fun i hi => ?_, by rw [hreads, List.getLast?_concat], st, ?_⟩
  · simp only [hreads, List.mem_append, List.mem_range'_1, List.mem_singleton] at hi
    omega
  · rw [printf, heq, printfLoop_of_run hrun, printfLoop_nul]

/-- A dangling `%` takes the NUL for its letter, and the loop goes on behind it. -/
theorem reads_past_of_dangling {text : List Byte} {args : List Word} (htext : 0 ∉ text)
    (hargs : Supplied strings text args) (hdangling : dangling text = true) (rest : List Byte)
    (buf : Vector Byte 128) :
    text.length + 1 ∈ printfReads strings (text ++ 0 :: rest) args buf := by
  obtain ⟨pieces, st, hrun, heq⟩ := @exists_run strings text
    { output := [], characters := 0, args, buf := buf.toList } htext hargs buf.size_toArray
  rw [hdangling, if_pos rfl] at heq
  have hnul : Advances strings st [byteOf '%', 0] st :=
    .conversion (convert_of_notMem (by decide) st)
  have hformat : text ++ 0 :: rest = (pieces ++ [[byteOf '%', 0]]).flatten ++ rest := by
    rw [heq]
    simp
  have hlen : 0 + (pieces ++ [[byteOf '%', 0]]).flatten.length = text.length + 1 := by
    rw [heq]
    simp
  rw [printfReads, hformat, reads_of_run (hrun.snoc hnul), hlen]
  exact List.mem_append_right _ (mem_printfLog rest _ st)

theorem staysWithin_iff {text : List Byte} {args : List Word} (htext : 0 ∉ text)
    (hargs : Supplied strings text args) (rest : List Byte) (buf : Vector Byte 128) :
    StaysWithin strings (text ++ 0 :: rest) args buf text.length ↔ dangling text = false := by
  constructor
  · intro hstays
    refine Bool.eq_false_of_not_eq_true fun hdangling => ?_
    have hle := hstays.1 _ (reads_past_of_dangling htext hargs hdangling rest buf)
    omega
  · intro hdangling
    exact staysWithin_of_not_dangling htext hargs hdangling rest buf

/-- **When `printf` stays within its format.**  On a format whose conversions have their
arguments it never reads past the first NUL, and ends there, exactly when the format ends in
an even number of `%`. -/
theorem printf_stays_iff {text : List Byte} {args : List Word} (htext : 0 ∉ text)
    (hargs : Supplied strings text args) (rest : List Byte) (buf : Vector Byte 128) :
    StaysWithin strings (text ++ 0 :: rest) args buf text.length ↔
      Even (trailingPercents text) := by
  rw [staysWithin_iff htext hargs, ← Nat.not_odd_iff_even, ← dangling_iff_odd,
    Bool.not_eq_true]

/-- `printf("100%")` reads the byte behind its format. -/
theorem printf_reads_past :
    Supplied (fun _ => []) ("100%".toList.map byteOf) [] ∧
      5 ∈ printfReads (fun _ => []) ("100%".toList.map byteOf ++ [0]) [] (Vector.replicate 128 0) ∧
      ¬ StaysWithin (fun _ => []) ("100%".toList.map byteOf ++ [0]) []
        (Vector.replicate 128 0) 4 := by
  have hmem : 5 ∈ printfReads (fun _ => []) ("100%".toList.map byteOf ++ [0]) []
      (Vector.replicate 128 0) := by decide
  exact ⟨trivial, hmem, fun h => absurd (h.1 5 hmem) (by decide)⟩

theorem printf_stays_iff_sample :
    StaysWithin (fun _ => []) ("100%%".toList.map byteOf ++ 0 :: []) [] (Vector.replicate 128 0) 5 ↔
      Even (trailingPercents ("100%%".toList.map byteOf)) :=
  have hnul : 0 ∉ "100%%".toList.map byteOf := by decide
  printf_stays_iff hnul trivial [] _

/-! ### The count -/

/-- The format's characters outside conversions. -/
def ordinaryChars : List Byte → ℕ
  | c :: d :: text =>
    if c = byteOf '%' then ordinaryChars text else ordinaryChars (d :: text) + 1
  | [c] => if c = byteOf '%' then 0 else 1
  | [] => 0

theorem ordinaryChars_le : ∀ text : List Byte, ordinaryChars text ≤ text.length
  | [] => le_rfl
  | [c] => by
    rw [ordinaryChars, List.length_singleton]
    split <;> omega
  | c :: d :: text => by
    have hle := ordinaryChars_le text
    have hle' := ordinaryChars_le (d :: text)
    rw [List.length_cons] at hle'
    rw [ordinaryChars, List.length_cons, List.length_cons]
    split <;> omega

theorem ordinaryChars_cons {c : Byte} (hc : c ≠ byteOf '%') (text : List Byte) :
    ordinaryChars (c :: text) = ordinaryChars text + 1 := by
  cases text with
  | nil => rw [ordinaryChars, if_neg hc]; rfl
  | cons d text => rw [ordinaryChars, if_neg hc]

/-- What `f` puts and counts depends on the arguments and the buffer only. -/
def Emits (f : Printf → Option Printf) : Prop :=
  ∀ st st', f st = some st' → ∃ out, ∀ output characters,
    f { st with output, characters } = some { st' with
      output := output ++ out, characters := characters + BitVec.ofNat 32 out.length }

theorem emits_putsWith (conv : Word → Word) (str : List Byte) :
    Emits (Printf.putsWith conv str) := by
  induction str with
  | nil => exact fun st st' h => absurd h (by simp [Printf.putsWith])
  | cons c str ih =>
    intro st st' h
    rw [Printf.putsWith] at h
    split at h
    · next hc =>
      obtain rfl := Option.some.inj h
      refine ⟨[], fun output characters => ?_⟩
      rw [Printf.putsWith, if_pos hc, List.append_nil, List.length_nil, BitVec.add_zero]
    · next hc =>
      obtain ⟨out, hout⟩ := ih _ _ h
      refine ⟨conv (c.signExtend 32) :: out, fun output characters => ?_⟩
      rw [Printf.putsWith, if_neg hc]
      refine (hout (output ++ [conv (c.signExtend 32)]) (characters + 1)).trans ?_
      rw [List.append_assoc, List.singleton_append, List.length_cons, BitVec.add_assoc,
        Nat.add_comm out.length 1, BitVec.ofNat_add]
      rfl

theorem emits_putNumber (number : Word → List Byte → Option (List Byte)) (conv : Word → Word) :
    Emits fun st => st.putNumber number conv := by
  rintro ⟨output, characters, args, buf⟩ st' h
  cases args with
  | nil => exact absurd h (by simp [Printf.putNumber, Printf.vaArg])
  | cons value args =>
    obtain ⟨written, hwritten, hputs⟩ := Option.bind_eq_some_iff.mp h
    obtain ⟨out, hout⟩ := emits_putsWith conv written _ _ hputs
    refine ⟨out, fun output characters => ?_⟩
    exact Option.bind_eq_some_iff.mpr ⟨written, hwritten, hout output characters⟩

/-- `%s`: taking a pointer and putting what is there. -/
theorem emits_putString : Emits (convert strings (byteOf 's')) := by
  rintro ⟨output, characters, args, buf⟩ st' h
  cases args with
  | nil => exact absurd (show none = some st' from h) (by simp)
  | cons ptr args =>
    obtain ⟨out, hout⟩ := emits_putsWith id (strings ptr) ⟨output, characters, args, buf⟩ st' h
    exact ⟨out, hout⟩

/-- `%c`: taking a character and putting it. -/
theorem emits_putChar : Emits (convert strings (byteOf 'c')) := by
  rintro ⟨output, characters, args, buf⟩ st' h
  cases args with
  | nil => exact absurd (show none = some st' from h) (by simp)
  | cons value args =>
    obtain rfl := Option.some.inj h
    exact ⟨[value], fun output characters => rfl⟩

/-- Each branch of the `switch` counts what it puts. -/
theorem emits_convert (c : Byte) : Emits (convert strings c) := by
  by_cases hc : c ∈ conversionLetters
  · rcases mem_conversionLetters.mp hc with rfl | rfl | rfl | rfl | rfl | rfl | rfl | rfl
    · exact emits_putNumber (fun value buf => itoa value buf 10) id
    · exact emits_putNumber (fun value buf => itoa value buf 10) id
    · exact emits_putNumber (fun value buf => uitoa value buf 10) id
    · exact emits_putNumber (fun value buf => uitoa value buf 16) id
    · exact emits_putNumber (fun value buf => uitoa value buf 16) toupper
    · exact emits_putNumber pitoa id
    · exact emits_putString
    · exact emits_putChar
  · intro st st' h
    rw [convert_of_notMem hc] at h
    obtain rfl := Option.some.inj h
    refine ⟨[], fun output characters => ?_⟩
    rw [convert_of_notMem hc, List.append_nil, List.length_nil, BitVec.add_zero]

/-- How many characters have been put and not counted. -/
def Printf.uncounted (st : Printf) : Word := BitVec.ofNat 32 st.output.length - st.characters

theorem Advances.uncounted {st st' : Printf} {piece : List Byte}
    (h : Advances strings st piece st') :
    st'.uncounted = st.uncounted + BitVec.ofNat 32 (ordinaryChars piece) := by
  cases h with
  | ordinary nul percent =>
    rw [ordinaryChars_cons percent, Printf.uncounted, Printf.uncounted, Printf.putchar,
      List.length_append, List.length_singleton, BitVec.ofNat_add]
    exact add_sub_right_comm _ _ _
  | conversion hconvert =>
    obtain ⟨out, hout⟩ := emits_convert _ _ _ hconvert
    have hst := Option.some.inj (hconvert.symm.trans (hout st.output st.characters))
    rw [hst, ordinaryChars, if_pos rfl, Printf.uncounted, Printf.uncounted, List.length_append,
      BitVec.ofNat_add]
    dsimp only
    rw [add_sub_add_right_eq_sub, ordinaryChars, BitVec.add_zero]

theorem ordinaryChars_append {st st' : Printf} {piece : List Byte}
    (h : Advances strings st piece st') (text : List Byte) :
    ordinaryChars (piece ++ text) = ordinaryChars piece + ordinaryChars text := by
  cases h with
  | ordinary nul percent =>
    rw [List.singleton_append, ordinaryChars_cons percent, ordinaryChars_cons percent,
      ordinaryChars]
    omega
  | conversion _ =>
    rw [List.cons_append, List.singleton_append, ordinaryChars, if_pos rfl, ordinaryChars,
      if_pos rfl, ordinaryChars, Nat.zero_add]

/-- A run leaves the ordinary characters uncounted. -/
theorem uncounted_of_run {st st' : Printf} {pieces : List (List Byte)}
    (h : Run (Advances strings) st pieces st') :
    st'.uncounted = st.uncounted + BitVec.ofNat 32 (ordinaryChars pieces.flatten) := by
  induction h with
  | nil st => simp [ordinaryChars]
  | cons hpiece _ ih =>
    rw [ih, hpiece.uncounted, List.flatten_cons, ordinaryChars_append hpiece, BitVec.ofNat_add,
      BitVec.add_assoc]

/-- **When the count is right.**  On a format that it stays within, with matching arguments,
`printf` returns the number of characters it put exactly when no character of the format is
outside a conversion: as an `int` that may have wrapped around, and so as a number when no
more characters are put than an `int` can count. -/
theorem printf_counts_iff {text : List Byte} {args : List Word} {rest : List Byte}
    {buf : Vector Byte 128} (htext : 0 ∉ text) (hlen : text.length < 2 ^ 32)
    (hargs : Supplied strings text args)
    (hstays : StaysWithin strings (text ++ 0 :: rest) args buf text.length) :
    ∃ st, printf strings (text ++ 0 :: rest) args buf = some st ∧
      (st.characters = BitVec.ofNat 32 st.output.length ↔ ordinaryChars text = 0) ∧
      (st.output.length < 2 ^ 31 →
        (st.characters.toInt = st.output.length ↔ ordinaryChars text = 0)) := by
  have hdangling := (staysWithin_iff htext hargs rest buf).mp hstays
  obtain ⟨pieces, st, heq, hrun⟩ := exists_complete_run htext hargs hdangling buf
  have hcount : BitVec.ofNat 32 st.output.length - st.characters =
      BitVec.ofNat 32 (ordinaryChars text) := by
    have huncounted := uncounted_of_run hrun
    rw [← heq] at huncounted
    simpa [Printf.uncounted] using huncounted
  have hiff : st.characters = BitVec.ofNat 32 st.output.length ↔ ordinaryChars text = 0 := by
    have hle := ordinaryChars_le text
    rw [eq_comm, ← sub_eq_zero, hcount]
    constructor
    · intro h0
      have hnat := congrArg BitVec.toNat h0
      rw [BitVec.toNat_ofNat, Nat.mod_eq_of_lt (by omega)] at hnat
      exact hnat
    · intro h0
      rw [h0]
      rfl
  refine ⟨st, ?_, hiff, fun hshort => ?_⟩
  · rw [printf, heq, printfLoop_of_run hrun, printfLoop_nul]
  · rw [← hiff]
    have hint : (BitVec.ofNat 32 st.output.length).toInt = st.output.length := by
      rw [BitVec.toInt_eq_toNat_of_lt (by rw [BitVec.toNat_ofNat]; omega), BitVec.toNat_ofNat]
      omega
    rw [← hint, BitVec.toInt_inj]

/-- `printf("a%u", 7)` prints two characters and returns 1. -/
theorem printf_counts_too_few :
    StaysWithin (fun _ => []) ("a%u".toList.map byteOf ++ [0]) [7] (Vector.replicate 128 0) 3 ∧
      ((printf (fun _ => []) ("a%u".toList.map byteOf ++ [0]) [7] (Vector.replicate 128 0)).map
        fun st => (st.output, st.characters)) = some ("a7".toList.map intOf, 1) ∧
      (1 : Word).toInt ≠ ("a7".toList.map intOf).length :=
  have hnul : 0 ∉ "a%u".toList.map byteOf := by decide
  have hargs : Supplied (fun _ => []) ("a%u".toList.map byteOf) [7] :=
    ⟨7, [], rfl, fun h => absurd h (by decide), trivial⟩
  ⟨staysWithin_of_not_dangling hnul hargs rfl [] _, by decide +kernel, by decide⟩

theorem printf_counts_iff_sample :
    ∃ st, printf (fun _ => []) ("%u".toList.map byteOf ++ 0 :: []) [7] (Vector.replicate 128 0) =
        some st ∧
      (st.characters = BitVec.ofNat 32 st.output.length ↔
        ordinaryChars ("%u".toList.map byteOf) = 0) ∧
      (st.output.length < 2 ^ 31 → (st.characters.toInt = st.output.length ↔
        ordinaryChars ("%u".toList.map byteOf) = 0)) :=
  have hnul : 0 ∉ "%u".toList.map byteOf := by decide
  have hargs : Supplied (fun _ => []) ("%u".toList.map byteOf) [7] :=
    ⟨7, [], rfl, fun h => absurd h (by decide), trivial⟩
  printf_counts_iff hnul (by decide) hargs (staysWithin_of_not_dangling hnul hargs rfl [] _)

/-! ### Escaped text -/

/-- The text with every `%` doubled. -/
def escape (s : List Byte) : List Byte :=
  s.flatMap fun c => if c = byteOf '%' then [byteOf '%', byteOf '%'] else [c]

/-- The characters of a text that are no `%`, as `putchar` gets them. -/
def withoutPercent (s : List Byte) : List Word :=
  (s.filter fun c => c ≠ byteOf '%').map (BitVec.signExtend 32)

theorem withoutPercent_nil : withoutPercent [] = [] := rfl

/-- `%%` is an unknown conversion, so an escaped text is printed without its `%`. -/
theorem run_escape {s : List Byte} (hs : 0 ∉ s) (st : Printf) :
    ∃ pieces, pieces.flatten = escape s ∧ Run (Advances strings) st pieces
      { st with output := st.output ++ withoutPercent s } := by
  induction s generalizing st with
  | nil =>
    refine ⟨[], rfl, ?_⟩
    rw [withoutPercent_nil, List.append_nil]
    exact .nil st
  | cons c s ih =>
    obtain ⟨hc, hrest⟩ := List.ne_and_not_mem_of_not_mem_cons hs
    by_cases hpercent : c = byteOf '%'
    · obtain ⟨pieces, hflat, hrun⟩ := ih hrest st
      refine ⟨[byteOf '%', byteOf '%'] :: pieces, ?_, ?_⟩
      · rw [List.flatten_cons, hflat, escape, escape, List.flatMap_cons, if_pos hpercent]
      · have hout : withoutPercent (c :: s) = withoutPercent s := by
          simp [withoutPercent, hpercent]
        rw [hout]
        exact .cons (.conversion (convert_of_notMem (by decide) st)) hrun
    · obtain ⟨pieces, hflat, hrun⟩ := ih hrest (st.putchar (c.signExtend 32))
      refine ⟨[c] :: pieces, ?_, ?_⟩
      · rw [List.flatten_cons, hflat, escape, escape, List.flatMap_cons, if_neg hpercent]
      · have hout : withoutPercent (c :: s) = [c.signExtend 32] ++ withoutPercent s := by
          simp [withoutPercent, hpercent]
        rw [hout, ← List.append_assoc]
        exact .cons (.ordinary (Ne.symm hc) hpercent) hrun

/-- The state with `before` put earlier. -/
def Printf.prepend (before : List Word) (st : Printf) : Printf :=
  { st with output := before ++ st.output }

/-- What was put before does not matter to a turn of the loop. -/
theorem Advances.prepend {st st' : Printf} {piece : List Byte}
    (h : Advances strings st piece st') (before : List Word) :
    Advances strings (st.prepend before) piece (st'.prepend before) := by
  cases h with
  | @ordinary char _ nul percent =>
    have hput : (st.putchar (char.signExtend 32)).prepend before =
        (st.prepend before).putchar (char.signExtend 32) := by
      rw [Printf.prepend, Printf.putchar, ← List.append_assoc]
      rfl
    rw [hput]
    exact .ordinary nul percent
  | conversion hconvert =>
    obtain ⟨out, hout⟩ := emits_convert _ _ _ hconvert
    have hst := Option.some.inj (hconvert.symm.trans (hout st.output st.characters))
    have hbefore := hout (before ++ st.output) st.characters
    rw [List.append_assoc] at hbefore
    refine .conversion (hbefore.trans ?_)
    rw [hst]
    rfl

theorem prepend_of_run {st st' : Printf} {pieces : List (List Byte)}
    (h : Run (Advances strings) st pieces st') (before : List Word) :
    Run (Advances strings) (st.prepend before) pieces (st'.prepend before) := by
  induction h with
  | nil st => exact .nil _
  | cons hpiece _ ih => exact .cons (hpiece.prepend before) ih

theorem length_withoutPercent_le (s : List Byte) : (withoutPercent s).length ≤ s.length := by
  rw [withoutPercent, List.length_map]
  exact List.length_filter_le _ _

theorem length_withoutPercent_eq_iff {s : List Byte} :
    (withoutPercent s).length = s.length ↔ byteOf '%' ∉ s := by
  rw [withoutPercent, List.length_map, List.length_filter_eq_length_iff]
  constructor
  · intro hall hmem
    exact absurd (hall _ hmem) (by decide)
  · intro hmem c hc
    simpa using fun heq : c = byteOf '%' => hmem (heq ▸ hc)

theorem withoutPercent_of_notMem {s : List Byte} (hs : byteOf '%' ∉ s) :
    withoutPercent s = s.map (BitVec.signExtend 32) := by
  rw [withoutPercent, List.filter_eq_self.mpr]
  intro c hc
  simpa using fun heq : c = byteOf '%' => hs (heq ▸ hc)

/-- A format that `printf` can run on these arguments. -/
structure WellFormed (strings : Strings) (format : List Byte) (args : List Word) : Prop where
  nul_notMem : 0 ∉ format
  supplied : Supplied strings format args
  complete : dangling format = false

/-- Between two escaped texts a format prints what it prints alone. -/
theorem printf_between {s1 f s2 : List Byte} {args : List Word} (hs1 : 0 ∉ s1) (hs2 : 0 ∉ s2)
    (hf : WellFormed strings f args) (rest rest' : List Byte) (buf : Vector Byte 128) :
    ∃ alone st, printf strings (f ++ 0 :: rest) args buf = some alone ∧
      printf strings (escape s1 ++ f ++ escape s2 ++ 0 :: rest') args buf = some st ∧
      st.output = withoutPercent s1 ++ alone.output ++ withoutPercent s2 := by
  obtain ⟨pieces, alone, heq, hrun⟩ :=
    exists_complete_run hf.nul_notMem hf.supplied hf.complete buf
  obtain ⟨pieces1, hflat1, hrun1⟩ := @run_escape strings s1 hs1
    { output := [], characters := 0, args, buf := buf.toList }
  have hmiddle := prepend_of_run hrun (withoutPercent s1)
  obtain ⟨pieces2, hflat2, hrun2⟩ := run_escape hs2 (alone.prepend (withoutPercent s1))
  refine ⟨alone, { alone.prepend (withoutPercent s1) with
    output := withoutPercent s1 ++ alone.output ++ withoutPercent s2 }, ?_, ?_, rfl⟩
  · rw [printf, heq, printfLoop_of_run hrun, printfLoop_nul]
  · rw [printf, heq, ← hflat1, ← hflat2, List.append_assoc, List.append_assoc,
      printfLoop_of_run hrun1, List.nil_append]
    have hstart : ({ output := withoutPercent s1, characters := 0, args, buf := buf.toList } :
        Printf) = Printf.prepend (withoutPercent s1)
          { output := [], characters := 0, args, buf := buf.toList } := by
      rw [Printf.prepend, List.append_nil]
    rw [hstart, printfLoop_of_run hmiddle, printfLoop_of_run hrun2, printfLoop_nul]
    rfl

/-- **When an escaped text is printed.**  `printf` of an escaped text prints the text, and
of a format between two escaped texts the texts around what the format prints, exactly when
no text has a `%`. -/
theorem printf_escape_iff (strings : Strings) (rest rest' : List Byte) (buf : Vector Byte 128) :
    (∀ s : List Byte, 0 ∉ s → ∃ st, printf strings (escape s ++ 0 :: rest) [] buf = some st ∧
      (st.output = s.map (BitVec.signExtend 32) ↔ byteOf '%' ∉ s)) ∧
    ∀ (s1 f s2 : List Byte) (args : List Word), 0 ∉ s1 → 0 ∉ s2 → WellFormed strings f args →
      ∃ alone st, printf strings (f ++ 0 :: rest) args buf = some alone ∧
        printf strings (escape s1 ++ f ++ escape s2 ++ 0 :: rest') args buf = some st ∧
        (st.output = s1.map (BitVec.signExtend 32) ++ alone.output ++
            s2.map (BitVec.signExtend 32) ↔ byteOf '%' ∉ s1 ∧ byteOf '%' ∉ s2) := by
  have hiff : ∀ (s1 s2 : List Byte) (out : List Word),
      withoutPercent s1 ++ out ++ withoutPercent s2 =
        s1.map (BitVec.signExtend 32) ++ out ++ s2.map (BitVec.signExtend 32) ↔
      byteOf '%' ∉ s1 ∧ byteOf '%' ∉ s2 := by
    intro s1 s2 out
    constructor
    · intro heq
      -- a `%` that is not printed is missing from the length
      have hlen := congrArg List.length heq
      simp only [List.length_append, List.length_map] at hlen
      have hle1 := length_withoutPercent_le s1
      have hle2 := length_withoutPercent_le s2
      exact ⟨length_withoutPercent_eq_iff.mp (by omega),
        length_withoutPercent_eq_iff.mp (by omega)⟩
    · rintro ⟨h1, h2⟩
      rw [withoutPercent_of_notMem h1, withoutPercent_of_notMem h2]
  constructor
  · intro s hs
    obtain ⟨pieces, hflat, hrun⟩ := @run_escape strings s hs
      { output := [], characters := 0, args := [], buf := buf.toList }
    refine ⟨_, by rw [printf, ← hflat, printfLoop_of_run hrun, printfLoop_nul], ?_⟩
    have hone := hiff s [] []
    simp only [withoutPercent_nil, List.append_nil, List.map_nil, List.not_mem_nil,
      not_false_eq_true, and_true] at hone
    exact hone
  · intro s1 f s2 args hs1 hs2 hf
    obtain ⟨alone, st, halone, hst, hout⟩ := printf_between hs1 hs2 hf rest rest' buf
    exact ⟨alone, st, halone, hst, by rw [hout]; exact hiff s1 s2 alone.output⟩

/-- `printf("100%%")` prints `100`. -/
theorem printf_swallows_percent :
    escape ("100%".toList.map byteOf) = "100%%".toList.map byteOf ∧
      ((printf (fun _ => []) (escape ("100%".toList.map byteOf) ++ [0]) []
        (Vector.replicate 128 0)).map Printf.output) = some ("100".toList.map intOf) ∧
      ("100%".toList.map byteOf).map (BitVec.signExtend 32) ≠ "100".toList.map intOf := by
  decide +kernel

theorem printf_escape_iff_sample :
    ∃ st, printf (fun _ => []) (escape ("100".toList.map byteOf) ++ 0 :: []) []
        (Vector.replicate 128 0) = some st ∧
      (st.output = ("100".toList.map byteOf).map (BitVec.signExtend 32) ↔
        byteOf '%' ∉ "100".toList.map byteOf) :=
  (printf_escape_iff (fun _ => []) [] [] (Vector.replicate 128 0)).1 _ (by decide)

end MVK
