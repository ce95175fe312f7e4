import Mathlib.Data.Fintype.EquivFin
import Mathlib.Data.List.Basic
import Mathlib.Logic.Relation
import Mathlib.Order.WellFounded

/-!
# Scanning a hierarchy in post-order

Nodes hold items, and an item may lead to another node.  A scan of a node goes through
its items in order, first through what is behind an item and then to the item itself.  It
follows the links blindly, so it comes to an end exactly when no cycle can be reached; and
it meets every item exactly once when the links below its start form a tree.

Nodes, items and the state that a scan works on are arbitrary types.

## Main definitions

* `Leads`, `Reaches` — the links between nodes.
* `scan d n` — the items at and below `n`, in post-order, to depth `d`.
* `walk add e d n s` — the same scan, as a recursion that adds each item to a state.
* `Forest` — no cycle, and no node with two parents, below a node.

## Main results

* `walk_of_scan` — **a walk adds the items of the scan, in order.**
* `exists_scan_iff` — **a scan ends exactly when no cycle is reached.**
* `mem_scan` — a scan meets what can be reached.
* `nodup_scan` — **in a forest, it meets nothing twice.**
* `pair_sublist_scan` — **an item comes after everything behind it.**
* `acyclic_of_unique` — a hierarchy with single parents, and none for its root, has no cycle.
-/

namespace PostOrder

open Relation

variable {N I S E : Type*} (items : N → List I) (child : I → Option N)

/-- Some item of `n` leads to `m`. -/
def Leads (n m : N) : Prop := ∃ i ∈ items n, child i = some m

/-- A chain of items leads from `n` to `m`. -/
abbrev Reaches : N → N → Prop := ReflTransGen (Leads items child)

/-- What `visit` finds behind an item. -/
def behind (visit : N → Option (List I)) (i : I) : Option (List I) :=
  match child i with
  | none => some []
  | some m => visit m

/-- The items of a list, each after what is behind it. -/
def scanItems (visit : N → Option (List I)) : List I → Option (List I)
  | [] => some []
  | i :: is => do
    let before ← behind child visit i
    let rest ← scanItems visit is
    return before ++ i :: rest

/-- The items at and below a node, in post-order, if the hierarchy is no deeper than `d`. -/
def scan : ℕ → N → Option (List I)
  | 0, _ => none
  | d + 1, n => scanItems child (scan d) (items n)

/-- Go through what is behind an item. -/
def descend (visit : N → S → Except E S) (s : S) (i : I) : Except E S :=
  match child i with
  | none => .ok s
  | some m => visit m s

/-- The scan as a recursion: `add` takes each item, and `e` is the error at depth 0. -/
def walk (add : S → I → Except E S) (e : E) : ℕ → N → S → Except E S
  | 0, _, _ => .error e
  | d + 1, n, s =>
    (items n).foldlM (fun s i => descend child (walk add e d) s i >>= fun s => add s i) s

variable {items child}

/-! ### One list of items -/

section Items

variable {visit visit' : N → Option (List I)} {is l : List I}

theorem scanItems_cons_eq_some {i : I} : scanItems child visit (i :: is) = some l ↔
    ∃ before rest, behind child visit i = some before ∧ scanItems child visit is = some rest ∧
      l = before ++ i :: rest := by
  rw [scanItems]
  cases behind child visit i with
  | none => simp
  | some before =>
    cases scanItems child visit is with
    | none => simp
    | some rest => simp [eq_comm]

/-- What is found behind an item was found by a visit, or is empty. -/
theorem mem_of_behind {i x : I} {before : List I} (h : behind child visit i = some before)
    (hx : x ∈ before) : ∃ m, child i = some m ∧ visit m = some before := by
  rw [behind] at h
  cases hc : child i with
  | none =>
    rw [hc] at h
    obtain rfl := Option.some.inj h
    exact absurd hx List.not_mem_nil
  | some m =>
    rw [hc] at h
    exact ⟨m, rfl, h⟩

theorem behind_mono {d : I} {before : List I}
    (hv : ∀ m l, visit m = some l → visit' m = some l)
    (h : behind child visit d = some before) : behind child visit' d = some before := by
  rw [behind] at h ⊢
  cases hc : child d with
  | none =>
    rw [hc] at h
    exact h
  | some m =>
    rw [hc] at h
    exact hv m before h

theorem scanItems_mono (hv : ∀ m l, visit m = some l → visit' m = some l)
    (h : scanItems child visit is = some l) : scanItems child visit' is = some l := by
  induction is generalizing l with
  | nil => exact h
  | cons i is ih =>
    obtain ⟨before, rest, hb, hr, rfl⟩ := scanItems_cons_eq_some.mp h
    exact scanItems_cons_eq_some.mpr ⟨before, rest, behind_mono hv hb, ih hr, rfl⟩

/-- A list is scanned when every node that one of its items leads to is. -/
theorem exists_scanItems_iff : (∃ l, scanItems child visit is = some l) ↔
    ∀ i ∈ is, ∀ m, child i = some m → ∃ l, visit m = some l := by
  induction is with
  | nil => simp [scanItems]
  | cons i is ih =>
    rw [List.forall_mem_cons, ← ih]
    constructor
    · rintro ⟨l, hl⟩
      obtain ⟨before, rest, hb, hr, -⟩ := scanItems_cons_eq_some.mp hl
      refine ⟨?_, rest, hr⟩
      intro m hm
      rw [behind, hm] at hb
      exact ⟨before, hb⟩
    · rintro ⟨hi, rest, hr⟩
      have hb : ∃ before, behind child visit i = some before := by
        rw [behind]
        cases hc : child i with
        | none => exact ⟨[], rfl⟩
        | some m => exact hi m hc
      obtain ⟨before, hb⟩ := hb
      exact ⟨_, scanItems_cons_eq_some.mpr ⟨before, rest, hb, hr, rfl⟩⟩

theorem mem_scanItems (h : scanItems child visit is = some l) {x : I} :
    x ∈ l ↔ x ∈ is ∨ ∃ i ∈ is, ∃ m l', child i = some m ∧ visit m = some l' ∧ x ∈ l' := by
  induction is generalizing l with
  | nil =>
    obtain rfl := Option.some.inj h
    simp
  | cons i is ih =>
    obtain ⟨before, rest, hb, hr, rfl⟩ := scanItems_cons_eq_some.mp h
    rw [List.mem_append, List.mem_cons, ih hr, List.mem_cons, List.exists_mem_cons_iff]
    have hbefore : x ∈ before ↔ ∃ m l', child i = some m ∧ visit m = some l' ∧ x ∈ l' := by
      constructor
      · intro hx
        obtain ⟨m, hc, hv⟩ := mem_of_behind hb hx
        exact ⟨m, before, hc, hv, hx⟩
      · rintro ⟨m, l', hc, hv, hx⟩
        rw [behind, hc] at hb
        obtain rfl := Option.some.inj (hb.symm.trans hv)
        exact hx
    simp only [hbefore, or_assoc, or_left_comm]

/-- Nothing is met twice if the visits are apart, and apart from the list. -/
theorem nodup_scanItems (h : scanItems child visit is = some l) (his : is.Nodup)
    (hvisit : ∀ i ∈ is, ∀ m l', child i = some m → visit m = some l' → l'.Nodup)
    (hout : ∀ i ∈ is, ∀ m l', child i = some m → visit m = some l' → ∀ j ∈ is, j ∉ l')
    (hapart : ∀ i ∈ is, ∀ j ∈ is, ∀ m m' l₁ l₂ x, child i = some m → visit m = some l₁ →
      child j = some m' → visit m' = some l₂ → x ∈ l₁ → x ∈ l₂ → i = j) : l.Nodup := by
  induction is generalizing l with
  | nil =>
    obtain rfl := Option.some.inj h
    exact List.nodup_nil
  | cons i is ih =>
    obtain ⟨before, rest, hb, hr, rfl⟩ := scanItems_cons_eq_some.mp h
    obtain ⟨hi, his⟩ := List.nodup_cons.mp his
    have hii : i ∈ i :: is := List.mem_cons_self
    have htail : ∀ {j}, j ∈ is → j ∈ i :: is := List.mem_cons_of_mem i
    have hrest : rest.Nodup := ih hr his (fun j hj => hvisit j (htail hj))
      (fun j hj m l' hc hv k hk => hout j (htail hj) m l' hc hv k (htail hk))
      (fun j hj k hk => hapart j (htail hj) k (htail hk))
    have hbefore : before.Nodup := by
      rw [behind] at hb
      cases hc : child i with
      | none =>
        rw [hc] at hb
        obtain rfl := Option.some.inj hb
        exact List.nodup_nil
      | some m =>
        rw [hc] at hb
        exact hvisit i hii m before hc hb
    have hirest : i ∉ rest := by
      intro hmem
      rcases (mem_scanItems hr).mp hmem with hin | ⟨j, hj, m, l', hc, hv, hx⟩
      · exact hi hin
      · exact hout j (htail hj) m l' hc hv i hii hx
    refine List.Nodup.append hbefore (List.nodup_cons.mpr ⟨hirest, hrest⟩) ?_
    intro x hxb hxr
    obtain ⟨m, hc, hv⟩ := mem_of_behind hb hxb
    rcases List.mem_cons.mp hxr with rfl | hxr
    · exact hout _ hii m before hc hv _ hii hxb
    · rcases (mem_scanItems hr).mp hxr with hin | ⟨j, hj, m', l', hc', hv', hx'⟩
      · exact hout i hii m before hc hv x (htail hin) hxb
      · have hij : i = j := hapart i hii j (htail hj) m m' before l' x hc hv hc' hv' hxb hx'
        exact hi (hij ▸ hj)

/-- What is behind an item is met before it. -/
theorem sublist_scanItems (h : scanItems child visit is = some l) {i : I} (hi : i ∈ is) {m : N}
    (hc : child i = some m) {before : List I} (hv : visit m = some before) :
    (before ++ [i]).Sublist l := by
  induction is generalizing l with
  | nil => exact absurd hi List.not_mem_nil
  | cons j is ih =>
    obtain ⟨found, rest, hb, hr, rfl⟩ := scanItems_cons_eq_some.mp h
    rcases List.mem_cons.mp hi with rfl | hi
    · rw [behind, hc] at hb
      obtain rfl := Option.some.inj (hb.symm.trans hv)
      exact List.Sublist.append_left (List.singleton_sublist.mpr List.mem_cons_self) _
    · exact (ih hr hi).trans
        ((List.sublist_cons_self j rest).trans (List.sublist_append_right found (j :: rest)))

end Items

/-! ### The scan -/

/-- A deeper scan finds the same. -/
theorem scan_mono {d d' : ℕ} (hd : d ≤ d') {n : N} {l : List I}
    (h : scan items child d n = some l) : scan items child d' n = some l := by
  induction d generalizing d' n l with
  | zero => exact absurd h (by simp [scan])
  | succ d ih =>
    cases d' with
    | zero => omega
    | succ d' => exact scanItems_mono (fun m l hm => ih (Nat.le_of_succ_le_succ hd) hm) h

/-- A depth that is enough for each of some nodes is enough for all of them. -/
theorem exists_scan_all {ns : List N} (h : ∀ n ∈ ns, ∃ d l, scan items child d n = some l) :
    ∃ d, ∀ n ∈ ns, ∃ l, scan items child d n = some l := by
  induction ns with
  | nil => exact ⟨0, fun n hn => absurd hn List.not_mem_nil⟩
  | cons n ns ih =>
    rw [List.forall_mem_cons] at h
    obtain ⟨⟨d₁, l, hl⟩, hns⟩ := h
    obtain ⟨d₂, hd₂⟩ := ih hns
    refine ⟨max d₁ d₂, List.forall_mem_cons.mpr ⟨⟨l, scan_mono (le_max_left _ _) hl⟩, ?_⟩⟩
    intro m hm
    obtain ⟨l', hl'⟩ := hd₂ m hm
    exact ⟨l', scan_mono (le_max_right _ _) hl'⟩

/-- A scan ends exactly when the links can be followed only finitely often. -/
theorem exists_scan_iff_acc {n : N} : (∃ d l, scan items child d n = some l) ↔
    Acc (fun m n => Leads items child n m) n := by
  constructor
  · rintro ⟨d, l, h⟩
    induction d generalizing n l with
    | zero => exact absurd h (by simp [scan])
    | succ d ih =>
      refine ⟨n, ?_⟩
      rintro m ⟨i, hi, hc⟩
      obtain ⟨l', hl'⟩ := exists_scanItems_iff.mp ⟨l, h⟩ i hi m hc
      exact ih l' hl'
  · intro hacc
    induction hacc with
    | intro n _ ih =>
      have hchildren : ∀ m ∈ (items n).filterMap child, ∃ d l, scan items child d m = some l := by
        intro m hm
        obtain ⟨i, hi, hc⟩ := List.mem_filterMap.mp hm
        exact ih m ⟨i, hi, hc⟩
      obtain ⟨d, hd⟩ := exists_scan_all hchildren
      have hlist : ∃ l, scanItems child (scan items child d) (items n) = some l :=
        exists_scanItems_iff.mpr fun i hi m hc =>
          hd m (List.mem_filterMap.mpr ⟨i, hi, hc⟩)
      exact ⟨d + 1, hlist⟩

/-- Among finitely many nodes, following the links ends unless there is a cycle. -/
theorem acc_iff_no_cycle [Finite N] {n : N} : Acc (fun m n => Leads items child n m) n ↔
    ∀ m, Reaches items child n m → ¬ TransGen (Leads items child) m m := by
  constructor
  · intro hacc m hm
    induction hacc generalizing m with
    | intro n _ ih =>
      rcases ReflTransGen.cases_head hm with rfl | ⟨b, hnb, hbm⟩
      · -- a cycle through `n` is one through the next node on it
        intro hcycle
        obtain ⟨b, hnb, hbn⟩ := TransGen.head'_iff.mp hcycle
        exact ih b hnb b ReflTransGen.refl (TransGen.tail' hbn hnb)
      · exact ih b hnb m hbm
  · intro hno
    -- on the nodes that `n` reaches, being further down is a strict order
    let below : {m // Reaches items child n m} → {m // Reaches items child n m} → Prop :=
      fun a b => TransGen (Leads items child) b.1 a.1
    have htrans : IsTrans _ below := ⟨fun _ _ _ hab hbc => TransGen.trans hbc hab⟩
    have hirrefl : Std.Irrefl below := ⟨fun a ha => hno a.1 a.2 ha⟩
    have hwf : WellFounded below := Finite.wellFounded_of_trans_of_irrefl below
    have hall : ∀ a : {m // Reaches items child n m},
        Acc (fun m n => Leads items child n m) a.1 := by
      intro a
      induction a using hwf.induction with
      | h a ih =>
        refine ⟨a.1, ?_⟩
        intro m hm
        exact ih ⟨m, a.2.tail hm⟩ (TransGen.single hm)
    exact hall ⟨n, ReflTransGen.refl⟩

/-- **A scan ends exactly when no cycle is reached.** -/
theorem exists_scan_iff [Finite N] {n : N} : (∃ d l, scan items child d n = some l) ↔
    ∀ m, Reaches items child n m → ¬ TransGen (Leads items child) m m :=
  exists_scan_iff_acc.trans acc_iff_no_cycle

/-- A scan meets the items of the nodes that can be reached. -/
theorem mem_scan {d : ℕ} {n : N} {l : List I} (h : scan items child d n = some l) {x : I} :
    x ∈ l ↔ ∃ m, Reaches items child n m ∧ x ∈ items m := by
  induction d generalizing n l with
  | zero => exact absurd h (by simp [scan])
  | succ d ih =>
    rw [mem_scanItems h]
    constructor
    · rintro (hx | ⟨i, hi, m, l', hc, hl', hx⟩)
      · exact ⟨n, ReflTransGen.refl, hx⟩
      · obtain ⟨m', hm', hx'⟩ := (ih hl').mp hx
        exact ⟨m', hm'.head ⟨i, hi, hc⟩, hx'⟩
    · rintro ⟨m, hm, hx⟩
      rcases ReflTransGen.cases_head hm with rfl | ⟨b, ⟨i, hi, hc⟩, hbm⟩
      · exact Or.inl hx
      · obtain ⟨l', hl'⟩ := exists_scanItems_iff.mp ⟨l, h⟩ i hi b hc
        exact Or.inr ⟨i, hi, b, l', hc, hl', (ih hl').mpr ⟨m, hbm, hx⟩⟩

/-- **An item comes after everything behind it.** -/
theorem pair_sublist_scan {d : ℕ} {n : N} {l : List I} (h : scan items child d n = some l)
    {m a b : N} {i x : I} (hm : Reaches items child n m) (hi : i ∈ items m)
    (hc : child i = some a) (ha : Reaches items child a b) (hx : x ∈ items b) :
    [x, i].Sublist l := by
  induction d generalizing n l with
  | zero => exact absurd h (by simp [scan])
  | succ d ih =>
    rcases ReflTransGen.cases_head hm with rfl | ⟨c, ⟨j, hj, hjc⟩, hcm⟩
    · -- an item of this node: the scan behind it is done first
      obtain ⟨before, hbefore⟩ := exists_scanItems_iff.mp ⟨l, h⟩ i hi a hc
      have hxb : x ∈ before := (mem_scan hbefore).mpr ⟨b, ha, hx⟩
      exact (List.Sublist.append_right (List.singleton_sublist.mpr hxb) [i]).trans
        (sublist_scanItems h hi hc hbefore)
    · obtain ⟨before, hbefore⟩ := exists_scanItems_iff.mp ⟨l, h⟩ j hj c hjc
      exact (ih hbefore hcm).trans
        ((List.sublist_append_left before [j]).trans (sublist_scanItems h hj hjc hbefore))

/-! ### Forests -/

/-- **No cycle below a root**: a node has one parent, and the root none. -/
theorem acyclic_of_unique {n : N}
    (hunique : ∀ a b c, Reaches items child n a → Reaches items child n b →
      Leads items child a c → Leads items child b c → a = b)
    (hroot : ∀ a, Reaches items child n a → ¬ Leads items child a n) {m : N}
    (hm : Reaches items child n m) : ¬ TransGen (Leads items child) m m := by
  induction hm with
  | refl =>
    intro hcycle
    obtain ⟨a, hna, han⟩ := TransGen.tail'_iff.mp hcycle
    exact hroot a hna han
  | @tail a c hna hac ih =>
    -- a cycle through a child comes in from its parent, so it is one through the parent
    intro hcycle
    obtain ⟨b, hcb, hbc⟩ := TransGen.tail'_iff.mp hcycle
    obtain rfl := hunique a b c hna ((hna.tail hac).trans hcb) hac hbc
    exact ih (TransGen.head' hac hcb)

variable (items child) in
/-- Below `n` there is no cycle, no node is reached through two items, and every item has
one place. -/
structure Forest (n : N) : Prop where
  acyclic : ∀ m, Reaches items child n m → ¬ TransGen (Leads items child) m m
  parent : ∀ m m' i i' c, Reaches items child n m → Reaches items child n m' → i ∈ items m →
    i' ∈ items m' → child i = some c → child i' = some c → i = i'
  home : ∀ m m' i, Reaches items child n m → Reaches items child n m' → i ∈ items m →
    i ∈ items m' → m = m'
  nodup : ∀ m, Reaches items child n m → (items m).Nodup

namespace Forest

variable {n : N}

/-- What is reached from a forest is one. -/
theorem of_reaches (hF : Forest items child n) {a : N} (ha : Reaches items child n a) :
    Forest items child a where
  acyclic m hm := hF.acyclic m (ha.trans hm)
  parent m m' i i' c hm hm' := hF.parent m m' i i' c (ha.trans hm) (ha.trans hm')
  home m m' i hm hm' := hF.home m m' i (ha.trans hm) (ha.trans hm')
  nodup m hm := hF.nodup m (ha.trans hm)

/-- A node has one parent. -/
theorem leads_unique (hF : Forest items child n) {a b c : N} (ha : Reaches items child n a)
    (hb : Reaches items child n b) (hac : Leads items child a c) (hbc : Leads items child b c) :
    a = b := by
  obtain ⟨i, hi, hci⟩ := hac
  obtain ⟨j, hj, hcj⟩ := hbc
  obtain rfl := hF.parent a b i j c ha hb hi hj hci hcj
  exact hF.home a b i ha hb hi hj

/-- Of two nodes above a third, one is above the other. -/
theorem reaches_total (hF : Forest items child n) {a b c : N} (ha : Reaches items child n a)
    (hb : Reaches items child n b) (hac : Reaches items child a c)
    (hbc : Reaches items child b c) :
    Reaches items child a b ∨ Reaches items child b a := by
  induction hac with
  | refl => exact Or.inr hbc
  | @tail c₁ c hac₁ hstep ih =>
    rcases ReflTransGen.cases_tail hbc with rfl | ⟨c₂, hbc₂, hstep'⟩
    · exact Or.inl (hac₁.tail hstep)
    · obtain rfl := hF.leads_unique (ha.trans hac₁) (hb.trans hbc₂) hstep hstep'
      exact ih hbc₂

/-- No node is below a child of its own. -/
theorem not_reaches_back (hF : Forest items child n) {m : N} (hm : Leads items child n m) :
    ¬ Reaches items child m n := fun hback =>
  hF.acyclic n ReflTransGen.refl (TransGen.head' hm hback)

/-- Two items of one node do not lead to nodes one below the other, unless they are the
same. -/
theorem eq_of_reaches (hF : Forest items child n) {i j : I} {m m' : N} (hi : i ∈ items n)
    (hj : j ∈ items n) (hci : child i = some m) (hcj : child j = some m')
    (h : Reaches items child m m') : i = j := by
  have hm : Leads items child n m := ⟨i, hi, hci⟩
  rcases ReflTransGen.cases_tail h with rfl | ⟨b, hmb, hb⟩
  · exact hF.parent n n i j m' ReflTransGen.refl ReflTransGen.refl hi hj hci hcj
  · -- the last link on the way is the one of `j`, so the way goes back through `n`
    obtain rfl := hF.leads_unique (hmb.head hm) ReflTransGen.refl hb ⟨j, hj, hcj⟩
    exact absurd hmb (hF.not_reaches_back hm)

end Forest

/-- **In a forest, a scan meets nothing twice.** -/
theorem nodup_scan {d : ℕ} {n : N} {l : List I} (hF : Forest items child n)
    (h : scan items child d n = some l) : l.Nodup := by
  induction d generalizing n l with
  | zero => exact absurd h (by simp [scan])
  | succ d ih =>
    refine nodup_scanItems h (hF.nodup n ReflTransGen.refl) ?_ ?_ ?_
    · intro i hi m l' hc hl'
      exact ih (hF.of_reaches (ReflTransGen.single ⟨i, hi, hc⟩)) hl'
    · -- an item of `n` is not met below a child of `n`
      intro i hi m l' hc hl' j hj hmem
      have hm : Leads items child n m := ⟨i, hi, hc⟩
      obtain ⟨a, ha, hja⟩ := (mem_scan hl').mp hmem
      obtain rfl := hF.home a n j (ha.head hm) ReflTransGen.refl hja hj
      exact hF.not_reaches_back hm ha
    · -- an item met below two children lies below one of them through the other
      intro i hi j hj m m' l₁ l₂ x hci hl₁ hcj hl₂ hx₁ hx₂
      have hm : Leads items child n m := ⟨i, hi, hci⟩
      have hm' : Leads items child n m' := ⟨j, hj, hcj⟩
      obtain ⟨a, ha, hxa⟩ := (mem_scan hl₁).mp hx₁
      obtain ⟨b, hb, hxb⟩ := (mem_scan hl₂).mp hx₂
      obtain rfl := hF.home a b x (ha.head hm) (hb.head hm') hxa hxb
      rcases hF.reaches_total (ReflTransGen.single hm) (ReflTransGen.single hm') ha hb with h | h
      · exact hF.eq_of_reaches hi hj hci hcj h
      · exact (hF.eq_of_reaches hj hi hcj hci h).symm

/-! ### The walk -/

section Walk

variable {add : S → I → Except E S} {e : E}

theorem bind_eq_ok {x : Except E S} {f : S → Except E S} {s : S} :
    x >>= f = .ok s ↔ ∃ t, x = .ok t ∧ f t = .ok s := by
  cases x with
  | error err => simp [bind, Except.bind]
  | ok t => simp [bind, Except.bind]

theorem bind_eq_error {x : Except E S} {f : S → Except E S} {err : E} :
    x >>= f = .error err ↔ x = .error err ∨ ∃ t, x = .ok t ∧ f t = .error err := by
  cases x with
  | error err' => simp [bind, Except.bind]
  | ok t => simp [bind, Except.bind]

theorem descend_of_behind {visit : N → Option (List I)} {visit' : N → S → Except E S}
    (hvisit : ∀ m l, visit m = some l → ∀ s, visit' m s = l.foldlM add s) {i : I}
    {before : List I} (h : behind child visit i = some before) (s : S) :
    descend child visit' s i = before.foldlM add s := by
  rw [behind] at h
  rw [descend]
  cases hc : child i with
  | none =>
    rw [hc] at h
    obtain rfl := Option.some.inj h
    rfl
  | some m =>
    rw [hc] at h
    exact hvisit m before h s

/-- **A walk adds the items of the scan, in order**, if the scan comes to an end. -/
theorem walk_of_scan {d : ℕ} {n : N} {l : List I} (h : scan items child d n = some l) (s : S) :
    walk items child add e d n s = l.foldlM add s := by
  induction d generalizing n l s with
  | zero => exact absurd h (by simp [scan])
  | succ d ih =>
    rw [scan] at h
    rw [walk]
    generalize items n = is at h ⊢
    induction is generalizing l s with
    | nil =>
      obtain rfl := Option.some.inj h
      rfl
    | cons i is ihs =>
      obtain ⟨before, rest, hbefore, hrest, rfl⟩ := scanItems_cons_eq_some.mp h
      have hdescend := descend_of_behind (fun m l hl s => ih hl s) hbefore s
      rw [List.foldlM_cons, hdescend, List.foldlM_append, bind_assoc]
      refine bind_congr fun s₁ => ?_
      rw [List.foldlM_cons]
      exact bind_congr fun s₂ => ihs s₂ hrest

/-- A walk that succeeds has been through the whole scan. -/
theorem exists_scan_of_walk {d : ℕ} {n : N} {s s' : S}
    (h : walk items child add e d n s = .ok s') : ∃ l, scan items child d n = some l := by
  induction d generalizing n s s' with
  | zero => exact absurd h (by simp [walk])
  | succ d ih =>
    rw [walk] at h
    rw [scan]
    generalize items n = is at h ⊢
    refine exists_scanItems_iff.mpr ?_
    induction is generalizing s with
    | nil => exact fun i hi => absurd hi List.not_mem_nil
    | cons i is ihs =>
      rw [List.foldlM_cons, bind_eq_ok] at h
      obtain ⟨s₂, hstep, hrest⟩ := h
      obtain ⟨s₁, hdescend, -⟩ := bind_eq_ok.mp hstep
      refine List.forall_mem_cons.mpr ⟨?_, ihs hrest⟩
      intro m hc
      rw [descend, hc] at hdescend
      exact ih hdescend

/-- Steps that fail only with `e`, one after the other. -/
theorem foldlM_error {J : Type*} {f : S → J → Except E S}
    (hf : ∀ s j err, f s j = .error err → err = e) {l : List J} {s : S} {err : E}
    (h : l.foldlM f s = .error err) : err = e := by
  induction l generalizing s with
  | nil => exact absurd h (by simp [pure, Except.pure])
  | cons j l ih =>
    rw [List.foldlM_cons] at h
    rcases bind_eq_error.mp h with hstep | ⟨s₁, -, hrest⟩
    · exact hf s j err hstep
    · exact ih hrest

/-- A walk fails only for its depth, if every item can be added. -/
theorem walk_error (hadd : ∀ s i, ∃ s', add s i = .ok s') {d : ℕ} {n : N} {s : S} {err : E}
    (h : walk items child add e d n s = .error err) : err = e := by
  induction d generalizing n s err with
  | zero => exact (Except.error.inj h).symm
  | succ d ih =>
    refine foldlM_error (fun s i err hstep => ?_) h
    rcases bind_eq_error.mp hstep with hdescend | ⟨s₁, -, hlast⟩
    · rw [descend] at hdescend
      cases hc : child i with
      | none =>
        rw [hc] at hdescend
        exact absurd hdescend (by simp)
      | some m =>
        rw [hc] at hdescend
        exact ih hdescend
    · obtain ⟨s₂, hs₂⟩ := hadd s₁ i
      rw [hs₂] at hlast
      exact absurd hlast (by simp)

/-- Walking some nodes in turn adds the items of their scans. -/
theorem foldlM_walk_of_scan {d : ℕ} {ns : List N}
    (h : ∀ n ∈ ns, ∃ l, scan items child d n = some l) :
    ∃ l : List I, ∀ s, ns.foldlM (fun s n => walk items child add e d n s) s = l.foldlM add s := by
  induction ns with
  | nil => exact ⟨[], fun _ => rfl⟩
  | cons n ns ih =>
    obtain ⟨⟨first, hfirst⟩, hothers⟩ := List.forall_mem_cons.mp h
    obtain ⟨rest, hrest⟩ := ih hothers
    refine ⟨first ++ rest, fun s => ?_⟩
    rw [List.foldlM_cons, walk_of_scan hfirst, List.foldlM_append]
    exact bind_congr hrest

/-- Walks of some nodes that succeed have been through their scans. -/
theorem exists_scan_of_foldlM_walk {d : ℕ} {ns : List N} {s s' : S}
    (h : ns.foldlM (fun s n => walk items child add e d n s) s = .ok s') :
    ∀ n ∈ ns, ∃ l, scan items child d n = some l := by
  induction ns generalizing s with
  | nil => exact fun n hn => absurd hn List.not_mem_nil
  | cons n ns ih =>
    rw [List.foldlM_cons, bind_eq_ok] at h
    obtain ⟨s₁, hfirst, hrest⟩ := h
    exact List.forall_mem_cons.mpr ⟨exists_scan_of_walk hfirst, ih hrest⟩

end Walk

end PostOrder
