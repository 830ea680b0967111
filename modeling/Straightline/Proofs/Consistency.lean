import Mathlib.Data.List.Basic
import Mathlib.Data.List.Perm.Subperm
import Straightline.Proofs.Transforms

/-!
# References and use-sets

`Program.Valid` is the invariant of the references: an operand that refers to an instruction refers
to a live one that defines a temporary and stands earlier. `Program.Consistent` adds the use-sets:
among the live instructions, each occurs in the use-set of a producer as often as it refers to the
producer. What else a use-set holds are identities of instructions that are gone.

`analyze` establishes the second from the first (`Program.Valid.analyze`), and the elementary
changes that the passes make keep it: an instruction changes without touching its references, an
unused one is taken out, or all references to one instruction are replaced.
-/

set_option autoImplicit false

namespace Straightline

/-- Occurrences of a reference, counted on the references or on the operands. -/
theorem count_refsOf (args : List Value) (r : InstId) :
    (refsOf args).count r = args.count (.ref r) := by
  induction args with
  | nil => rfl
  | cons v args ih =>
      cases v with
      | literal l =>
          rw [List.count_cons_of_ne (by simp)]
          exact ih
      | name s =>
          rw [List.count_cons_of_ne (by simp)]
          exact ih
      | ref x =>
          have hcons : refsOf (.ref x :: args) = x :: refsOf args := rfl
          rw [hcons, List.count_cons, List.count_cons, ih]
          simp

namespace Program

/-- Every reference of a live instruction leads to an earlier live instruction that defines a
temporary, and use-sets hold identities that exist. -/
structure Valid (p : Program) : Prop where
  nodup : p.order.Nodup
  known : ∀ id ∈ p.order, p.Known id
  refs : ∀ id ∈ p.order, ∀ r, .ref r ∈ (p.inst id).args →
    p.Precedes r id ∧ (p.inst r).isTemp = true
  uses : ∀ id ∈ p.order, ∀ u ∈ (p.inst id).uses, p.Known u

/-- Moreover, the use-sets count the references between live instructions. -/
structure Consistent (p : Program) : Prop extends p.Valid where
  count : ∀ d ∈ p.order, ∀ u ∈ p.order,
    (p.inst d).uses.count u = (p.inst u).args.count (.ref d)

/-- The identities in a valid program have slots. -/
theorem Valid.closed {p : Program} (h : p.Valid) : p.Closed where
  nodup := h.nodup
  known := h.known
  args id hid r hr := h.known r (h.refs id hid r hr).1.left_mem
  uses := h.uses

/-- References of live instructions lead to live instructions. -/
def RefsLive (p : Program) : Prop :=
  ∀ id ∈ p.order, ∀ r, .ref r ∈ (p.inst id).args → r ∈ p.order

instance (p : Program) : Decidable p.RefsLive :=
  decidable_of_iff (∀ id ∈ p.order, ∀ r ∈ refsOf (p.inst id).args, r ∈ p.order)
    (by simp only [mem_refsOf, RefsLive])

/-- The references in a valid program lead to live instructions. -/
theorem Valid.refsLive {p : Program} (h : p.Valid) : p.RefsLive := fun id hid r hr =>
  (h.refs id hid r hr).1.left_mem

/-- The consumers of an instruction in program order, once per operand that refers to it. -/
def consumers (p : Program) (d : InstId) : List InstId :=
  p.order.flatMap fun u => List.replicate ((p.inst u).args.count (.ref d)) u

/-- Each element of a list without repetition is counted as often as it is replicated. -/
theorem count_flatMap_replicate (ids : List InstId) (f : InstId → Nat) (hn : ids.Nodup)
    (x : InstId) : (ids.flatMap fun u => List.replicate (f u) u).count x =
      if x ∈ ids then f x else 0 := by
  induction ids with
  | nil => simp
  | cons u ids ih =>
      have hu := (List.nodup_cons.mp hn).1
      rw [List.flatMap_cons, List.count_append, ih (List.nodup_cons.mp hn).2, List.count_replicate]
      by_cases hx : u = x
      · subst hx
        simp [hu]
      · have hx' : x ≠ u := fun e => hx e.symm
        simp [hx, hx']

/-- The live entries of a use-set are the consumers, in some order. -/
theorem Consistent.perm_consumers {p : Program} (h : p.Consistent) {d : InstId}
    (hd : d ∈ p.order) :
    ((p.inst d).uses.filter (· ∈ p.order)).Perm (p.consumers d) := by
  rw [List.perm_iff_count]
  intro x
  rw [consumers, count_flatMap_replicate _ _ h.nodup]
  by_cases hx : x ∈ p.order
  · rw [List.count_filter (by simpa using hx), if_pos hx, h.count d hd x hx]
  · rw [if_neg hx, List.count_eq_zero]
    intro hm
    exact hx (by simpa using (List.mem_filter.mp hm).2)

/-! ## The analysis -/

/-- A sweep whose visits keep the order is a fold over the order. -/
theorem sweep_eq_foldl {visit : Program → InstId → Program}
    (hv : ∀ q id, (visit q id).order = q.order) (p : Program) :
    p.sweep visit = p.order.foldl visit p := by
  have key : ∀ (ids : List InstId) (q : Program), (∀ id ∈ ids, id ∈ q.order) →
      foldLive (fun _ q id => ((), visit q id)) ids ((), q) = ((), ids.foldl visit q) := by
    intro ids
    induction ids with
    | nil => exact fun q _ => rfl
    | cons id ids ih =>
        intro q hids
        have hfold : foldLive (fun _ q id => ((), visit q id)) (id :: ids) ((), q) =
            foldLive (fun _ q id => ((), visit q id)) ids ((), visit q id) := by
          simp [foldLive, hids id (by simp)]
        rw [hfold, ih (visit q id) fun x hx => by rw [hv]; exact hids x (by simp [hx])]
        rfl
  rw [sweep, key p.order p fun _ h => h]

theorem order_foldl_of_same {visit : Program → InstId → Program}
    (hv : ∀ q id, (visit q id).order = q.order) (ids : List InstId) (p : Program) :
    (ids.foldl visit p).order = p.order := by
  induction ids generalizing p with
  | nil => rfl
  | cons id ids ih => rw [List.foldl_cons, ih, hv]

/-- Changes to several instructions, one by one. -/
theorem inst_foldl_modify (f : Inst → Inst) {ids : List InstId} (hn : ids.Nodup) (p : Program)
    (x : InstId) : (ids.foldl (fun q id => q.modify id f) p).inst x =
      if x ∈ ids then f (p.inst x) else p.inst x := by
  induction ids generalizing p with
  | nil => simp
  | cons id ids ih =>
      obtain ⟨hid, hn⟩ := List.nodup_cons.mp hn
      rw [List.foldl_cons, ih hn, inst_modify]
      by_cases hx : x = id
      · subst hx
        simp [hid]
      · simp [hx]

/-- Clearing use-sets empties those of the visited instructions. -/
theorem inst_foldl_clearUses (ids : List InstId) (p : Program) (d : InstId) :
    (ids.foldl clearUses p).inst d =
      if d ∈ ids then { p.inst d with uses := [] } else p.inst d := by
  induction ids generalizing p with
  | nil => simp
  | cons id ids ih =>
      rw [List.foldl_cons, ih, clearUses, inst_modify]
      by_cases hd : d = id
      · subst hd
        simp
      · simp [hd]

/-- Appending an element several times appends its copies. -/
theorem iterate_append_singleton (l : List InstId) (x : InstId) (n : Nat) :
    (fun uses => uses ++ [x])^[n] l = l ++ List.replicate n x := by
  induction n generalizing l with
  | zero => simp
  | succ n ih => rw [Function.iterate_succ_apply, ih, List.replicate_succ, List.append_assoc,
      List.singleton_append]

/-- Recording changes nothing but use-sets, so the operands read later are those read before. -/
theorem inst_foldl_recordUses (ids : List InstId) (p : Program) (d : InstId) :
    (ids.foldl recordUses p).inst d = { p.inst d with
      uses := (p.inst d).uses ++
        ids.flatMap fun u => List.replicate ((p.inst u).args.count (.ref d)) u } := by
  induction ids generalizing p with
  | nil => simp
  | cons id ids ih =>
      rw [List.foldl_cons, ih]
      have hargs : ∀ u, ((p.recordUses id).inst u).args = (p.inst u).args := fun u => by
        rw [recordUses, inst_modifyUses]
      simp only [hargs]
      rw [recordUses, inst_modifyUses, iterate_append_singleton, count_refsOf]
      simp

theorem order_clearUses (p : Program) (id : InstId) : (clearUses p id).order = p.order := rfl

theorem size_clearUses (p : Program) (id : InstId) : (clearUses p id).size = p.size := rfl

theorem order_recordUses (p : Program) (id : InstId) : (recordUses p id).order = p.order := by
  simp [recordUses]

theorem order_analyze (p : Program) : p.analyze.order = p.order := by
  rw [analyze, sweep_eq_foldl order_recordUses, order_foldl_of_same order_recordUses,
    sweep_eq_foldl order_clearUses, order_foldl_of_same order_clearUses]

/-- The analysis empties the use-sets of the live instructions and then records every consumer. -/
theorem inst_analyze_eq (p : Program) (d : InstId) :
    p.analyze.inst d = { p.inst d with
      uses := (if d ∈ p.order then [] else (p.inst d).uses) ++ p.consumers d } := by
  rw [analyze, sweep_eq_foldl order_recordUses, sweep_eq_foldl order_clearUses,
    inst_foldl_recordUses, order_foldl_of_same order_clearUses]
  have hargs : ∀ u, ((p.order.foldl clearUses p).inst u).args = (p.inst u).args := fun u => by
    rw [inst_foldl_clearUses]
    split <;> rfl
  simp only [hargs]
  rw [inst_foldl_clearUses, ← consumers]
  split <;> rfl

/-- The analysis gives every live instruction its consumers, and changes nothing else of it. -/
theorem inst_analyze {p : Program} {d : InstId} (hd : d ∈ p.order) :
    p.analyze.inst d = { p.inst d with uses := p.consumers d } := by
  rw [inst_analyze_eq, if_pos hd, List.nil_append]

theorem size_sweep {visit : Program → InstId → Program}
    (hv : ∀ q id, (visit q id).size = q.size) (p : Program) : (p.sweep visit).size = p.size :=
  sweep_induction (fun q => q.size = p.size) (fun q id h _ => (hv q id).trans h) rfl

theorem size_analyze (p : Program) : p.analyze.size = p.size := by
  rw [analyze, size_sweep (fun q id => by simp [recordUses]), size_sweep size_clearUses]

/-- A consumer is listed once for each of its operands that refers to the producer. -/
theorem count_consumers {p : Program} (hn : p.order.Nodup) (d u : InstId) :
    (p.consumers d).count u =
      if u ∈ p.order then (p.inst u).args.count (.ref d) else 0 :=
  count_flatMap_replicate _ _ hn u

/-- The consumers are the live instructions that refer to the producer. -/
theorem mem_consumers_iff {p : Program} {d u : InstId} :
    u ∈ p.consumers d ↔ u ∈ p.order ∧ .ref d ∈ (p.inst u).args := by
  constructor
  · intro h
    obtain ⟨x, hx, hu⟩ := List.mem_flatMap.mp h
    obtain ⟨hpos, rfl⟩ := List.mem_replicate.mp hu
    exact ⟨hx, List.count_pos_iff.mp (Nat.pos_of_ne_zero hpos)⟩
  · rintro ⟨hu, hr⟩
    have hpos := Nat.ne_of_gt (List.count_pos_iff.mpr hr)
    exact List.mem_flatMap.mpr ⟨u, hu, List.mem_replicate.mpr ⟨hpos, rfl⟩⟩

/-- After the analysis the use-sets are exact. -/
theorem Valid.analyze {p : Program} (h : p.Valid) : p.analyze.Consistent where
  nodup := by rw [order_analyze]; exact h.nodup
  known := by
    rw [order_analyze]
    simpa only [Known, size_analyze] using h.known
  refs := by
    intro id hid r hr
    rw [order_analyze] at hid
    rw [inst_analyze hid] at hr
    obtain ⟨hpre, ht⟩ := h.refs id hid r hr
    refine ⟨by rw [Precedes, order_analyze]; exact hpre, ?_⟩
    rw [inst_analyze hpre.left_mem]
    exact ht
  uses := by
    intro id hid u hu
    rw [order_analyze] at hid
    rw [inst_analyze hid] at hu
    simpa only [Known, size_analyze] using h.known u (mem_consumers_iff.mp hu).1
  count := by
    intro d hd u hu
    rw [order_analyze] at hd hu
    rw [inst_analyze hd, inst_analyze hu]
    exact (count_consumers h.nodup d u).trans (if_pos hu)

/-- An instruction that is gone keeps the use-set that it had, since nothing refers to it. -/
theorem inst_analyze_of_not_mem {p : Program} (h : p.RefsLive) {d : InstId} (hd : d ∉ p.order) :
    p.analyze.inst d = p.inst d := by
  have hnone : p.consumers d = [] := List.eq_nil_iff_forall_not_mem.mpr fun u hu => by
    obtain ⟨hu, hr⟩ := mem_consumers_iff.mp hu
    exact hd (h u hu d hr)
  rw [inst_analyze_eq, if_neg hd, hnone, List.append_nil]

/-- An analysis keeps all references live. -/
theorem RefsLive.analyze {p : Program} (h : p.RefsLive) : p.analyze.RefsLive := by
  intro id hid r hr
  rw [order_analyze] at hid ⊢
  rw [inst_analyze hid] at hr
  exact h id hid r hr

/-- Analysing once more changes nothing. -/
theorem RefsLive.analyze_analyze {p : Program} (h : p.RefsLive) :
    p.analyze.analyze = p.analyze := by
  have hargs : ∀ u ∈ p.order, (p.analyze.inst u).args = (p.inst u).args := fun u hu => by
    rw [inst_analyze hu]
  ext1
  · exact order_analyze p.analyze
  · exact size_analyze p.analyze
  · funext d
    by_cases hd : d ∈ p.order
    · have hsame : p.analyze.consumers d = p.consumers d := by
        rw [consumers, order_analyze]
        exact List.flatMap_congr fun u hu => by rw [hargs u hu]
      rw [inst_analyze (by rwa [order_analyze]), hsame, inst_analyze hd]
    · exact inst_analyze_of_not_mem h.analyze (by rwa [order_analyze])

/-! ## Elementary changes -/

/-- An instruction may change as long as its destination, its use-set and its references stay. -/
theorem Consistent.modify {p : Program} {id : InstId} {f : Inst → Inst} (h : p.Consistent)
    (hdst : (f (p.inst id)).dst = (p.inst id).dst) (huses : (f (p.inst id)).uses = (p.inst id).uses)
    (hargs : ∀ r, (f (p.inst id)).args.count (.ref r) = (p.inst id).args.count (.ref r)) :
    (p.modify id f).Consistent := by
  have hd : ∀ x, ((p.modify id f).inst x).dst = (p.inst x).dst := by
    intro x
    rw [inst_modify]
    split
    case isTrue e => rw [e, hdst]
    case isFalse => rfl
  have hu : ∀ x, ((p.modify id f).inst x).uses = (p.inst x).uses := by
    intro x
    rw [inst_modify]
    split
    case isTrue e => rw [e, huses]
    case isFalse => rfl
  have hc : ∀ x r, ((p.modify id f).inst x).args.count (.ref r) =
      (p.inst x).args.count (.ref r) := by
    intro x r
    rw [inst_modify]
    split
    case isTrue e => rw [e, hargs]
    case isFalse => rfl
  constructor
  case toValid =>
    refine ⟨h.nodup, h.known, fun x hx r hr => ?_, fun x hx u hux => ?_⟩
    · have hr' : .ref r ∈ (p.inst x).args := by
        rw [← List.count_pos_iff] at hr ⊢
        rwa [hc] at hr
      obtain ⟨hpre, ht⟩ := h.refs x hx r hr'
      exact ⟨hpre, by rw [Inst.isTemp, hd]; exact ht⟩
    · rw [hu] at hux
      exact h.uses x hx u hux
  case count =>
    intro d hd' u hu'
    rw [hu, hc]
    exact h.count d hd' u hu'

/-- Nobody refers to an instruction without live entries in its use-set. -/
theorem Consistent.not_mem_args {p : Program} (h : p.Consistent) {d u : InstId}
    (hd : d ∈ p.order) (hu : u ∈ p.order) (hn : u ∉ (p.inst d).uses) :
    .ref d ∉ (p.inst u).args := by
  rw [← List.count_eq_zero] at hn ⊢
  rw [← h.count d hd u hu]
  exact hn

/-- Who refers to an instruction is in its use-set. -/
theorem Consistent.mem_uses {p : Program} (h : p.Consistent) {d u : InstId}
    (hd : d ∈ p.order) (hu : u ∈ p.order) (ha : .ref d ∈ (p.inst u).args) :
    u ∈ (p.inst d).uses := by
  by_contra hn
  exact h.not_mem_args hd hu hn ha

/-- What is in the use-set of an instruction refers to it, and so stands after it. -/
theorem Consistent.precedes_of_mem_uses {p : Program} (h : p.Consistent) {d u : InstId}
    (hd : d ∈ p.order) (hu : u ∈ p.order) (hm : u ∈ (p.inst d).uses) :
    p.Precedes d u ∧ (p.inst d).isTemp = true := by
  have hcount := h.count d hd u hu
  have hpos := List.count_pos_iff.mpr hm
  apply h.refs u hu
  rw [← List.count_pos_iff]
  omega

/-- A product that may be merged is a temporary, and its consumer stands after it. -/
theorem Consistent.precedes_of_candidate {p : Program} (h : p.Consistent) {id user : InstId}
    {a b : Value} (hid : id ∈ p.order) (hu : user ∈ p.order)
    (hc : Fusion.candidate? (p.inst id) = some (a, b, user)) :
    p.Precedes id user ∧ (p.inst id).isTemp = true := by
  obtain ⟨-, -, huses⟩ := candidate?_eq_some hc
  exact h.precedes_of_mem_uses hid hu (by simp [huses])

/-- An instruction that nobody refers to may go. -/
theorem Consistent.remove {p : Program} {id : InstId} (h : p.Consistent)
    (hn : ∀ u ∈ p.order, .ref id ∉ (p.inst u).args) : (p.remove id).Consistent := by
  have hmem : ∀ x ∈ (p.remove id).order, x ∈ p.order := fun x hx => List.mem_of_mem_erase hx
  constructor
  case toValid =>
    refine ⟨h.nodup.erase id, fun x hx => h.known x (hmem x hx), fun x hx r hr => ?_,
      fun x hx => h.uses x (hmem x hx)⟩
    obtain ⟨hpre, ht⟩ := h.refs x (hmem x hx) r hr
    refine ⟨(precedes_remove h.nodup).mpr ⟨hpre, ?_, ((mem_order_remove h.nodup).mp hx).1⟩, ht⟩
    rintro rfl
    exact hn x (hmem x hx) hr
  case count => exact fun d hd u hu => h.count d (hmem d hd) u (hmem u hu)

/-- How often an operand occurs after another one has been replaced. -/
theorem count_replace (i : Inst) {old new : Value} (hne : old ≠ new) (v : Value) :
    (i.replace old new).args.count v =
      (if v = new then i.args.count old else 0) + if v = old then 0 else i.args.count v := by
  unfold Inst.replace
  induction i.args with
  | nil => simp
  | cons a args ih =>
      simp only [List.map_cons, List.count_cons, ih]
      grind

/-- All references to `old` may be replaced by an operand that was available there, with `old` taken
out, if the use-set of the operand's producer gains the consumers of `old`. -/
theorem Consistent.substitute {p q : Program} (h : p.Consistent) (old : InstId) (v : Value)
    (horder : q.order = p.order.erase old) (hsize : q.size = p.size)
    (hargs : ∀ u ∈ q.order, (q.inst u).args = ((p.inst u).replace (.ref old) v).args)
    (hv : ∀ r, v = .ref r → p.Precedes r old ∧
      ((p.inst old).isTemp = true → (q.inst r).isTemp = true))
    (htemp : ∀ u ∈ q.order, ∀ r, r ≠ old → .ref r ∈ (p.inst u).args → (q.inst r).isTemp = true)
    (hknown : ∀ d ∈ q.order, ∀ u ∈ (q.inst d).uses, p.Known u)
    (hcount : ∀ d ∈ q.order, ∀ u ∈ q.order, (q.inst d).uses.count u =
      (if v = .ref d then (p.inst u).args.count (.ref old) else 0) +
        (p.inst u).args.count (.ref d)) : q.Consistent := by
  have hmem : ∀ x ∈ q.order, x ≠ old ∧ x ∈ p.order := fun x hx =>
    h.nodup.mem_erase_iff.mp (horder ▸ hx)
  have hpre : ∀ a b, p.Precedes a b → a ≠ old → b ≠ old → q.Precedes a b := by
    intro a b hab ha hb
    have := (precedes_remove h.nodup).mpr ⟨hab, ha, hb⟩
    rw [Precedes, horder]
    exact this
  have hne : Value.ref old ≠ v := by
    intro e
    exact (hv old e.symm).1.ne h.nodup rfl
  have hknown' : ∀ x, p.Known x → q.Known x := fun x hx => by simpa [Known, hsize] using hx
  constructor
  case toValid =>
    refine ⟨horder ▸ h.nodup.erase old, fun x hx => hknown' x (h.known x (hmem x hx).2),
      fun u hu r hr => ?_, fun x hx u hu => hknown' u (hknown x hx u hu)⟩
    rw [hargs u hu] at hr
    obtain ⟨hu₁, hu₂⟩ := hmem u hu
    rcases mem_args_replace hr with ⟨rfl, hold⟩ | ⟨hr, hro⟩
    · -- a reference that was replaced: the operand stands before `old`, which stands before `u`
      obtain ⟨hold₁, hold₂⟩ := h.refs u hu₂ old hold
      obtain ⟨hr₁, hr₂⟩ := hv r rfl
      exact ⟨hpre r u (hr₁.trans h.nodup hold₁) (hr₁.ne h.nodup) hu₁, hr₂ hold₂⟩
    · have hro' : r ≠ old := fun e => hro (by rw [e])
      exact ⟨hpre r u (h.refs u hu₂ r hr).1 hro' hu₁, htemp u hu r hro' hr⟩
  case count =>
    intro d hd u hu
    have hdo : Value.ref d ≠ .ref old := by simpa using (hmem d hd).1
    rw [hargs u hu, count_replace _ hne, if_neg hdo, hcount d hd u hu]
    simp only [eq_comm]

end Program

end Straightline
