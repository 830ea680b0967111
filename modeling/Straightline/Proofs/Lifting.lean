import Mathlib.Data.List.Sort
import Straightline.Proofs.Frames
import Straightline.Proofs.Slots

/-!
# Which literals are lifted

The literals that may be lifted are those with a cost, each once, where it occurs first
(`Program.candidates`). Lifting takes as many as there are slots left, from the front of the list
sorted by descending cost; the sort is stable, so of equally costly literals the earlier one goes
first. The priorities put cost and place into one number, and a queue that always gives an entry of
highest priority (`Drains`) gives the literals in this order and in no other (`drains_ranked_iff`).
So it does not matter how the queue chooses among entries of highest priority.

`lift_takes_costliest` says what lifting does to the store: the chosen literals become names of
constants wherever they stand in a live instruction, and nothing else changes.
-/

set_option autoImplicit false

namespace Straightline

/-! ## The candidates -/

theorem addNew_nil {α : Type} [BEq α] [LawfulBEq α] (xs : List α) :
    addNew [] xs = xs.eraseDups := by
  induction xs using List.reverseRecOn with
  | nil => rfl
  | append_singleton xs x ih =>
      rw [Program.addNew_append, ih, List.eraseDups_append]
      by_cases hx : x ∈ xs
      · simp [addNew, List.removeAll, hx]
      · simp [addNew, List.removeAll, hx, List.eraseDups_cons]

namespace Program

/-- The literals that take instructions to build, each where it occurs first. -/
def candidates (p : Program) : List Literal := (p.literals.filter (·.cost ≠ 0)).eraseDups

theorem costlyLiterals_eq (p : Program) : p.costlyLiterals = p.candidates := by
  rw [candidates, literals, List.filter_flatMap, ← addNew_nil]
  exact foldl_addNew _ p.order []

theorem cost_of_mem_candidates (p : Program) : ∀ l ∈ p.candidates, l.cost ≠ 0 := by
  rw [← costlyLiterals_eq]
  exact fun _ => costly_of_mem_costlyLiterals

end Program

/-! ## Sorting by cost -/

theorem Literal.cost_le (l : Literal) : l.cost ≤ 2 := by
  unfold cost
  split
  · split <;> omega
  · split <;> omega

theorem Literal.cost_eq_one {l : Literal} (hcost : l.cost ≠ 0) (hne : l.cost ≠ 2) : l.cost = 1 := by
  have := l.cost_le
  omega

/-- Whether a literal may go before another one: it is not less costly. -/
def costlier (a b : Literal) : Bool := b.cost ≤ a.cost

theorem costlier_trans (a b c : Literal) (hab : costlier a b = true) (hbc : costlier b c = true) :
    costlier a c = true := by
  simp only [costlier, decide_eq_true_eq] at *
  omega

theorem costlier_total (a b : Literal) : (costlier a b || costlier b a) = true := by
  simp only [costlier, Bool.or_eq_true, decide_eq_true_eq]
  omega

/-- The literals by descending cost, equally costly ones in the order they had. -/
def costliestFirst (found : List Literal) : List Literal :=
  found.mergeSort costlier

section Sorting

variable {found : List Literal}

theorem costliestFirst_sorted (found : List Literal) :
    (costliestFirst found).Pairwise fun a b => b.cost ≤ a.cost := by
  have hsorted := List.pairwise_mergeSort costlier_trans costlier_total found
  simpa [costlier, costliestFirst] using hsorted

/-- Literals of one cost keep their order. -/
theorem filter_costliestFirst {P : Literal → Bool}
    (hP : ∀ a ∈ found.filter P, ∀ b ∈ found.filter P, b.cost = a.cost) :
    (costliestFirst found).filter P = found.filter P := by
  have hpairwise : (found.filter P).Pairwise fun a b => costlier a b = true := by
    rw [List.pairwise_iff_forall_sublist]
    intro a b hab
    have ha : a ∈ found.filter P := hab.subset (by simp)
    have hb : b ∈ found.filter P := hab.subset (by simp)
    simp [costlier, hP a ha b hb]
  have hsub := (List.sublist_mergeSort costlier_trans costlier_total hpairwise
    List.filter_sublist).filter P
  simp only [List.filter_filter, Bool.and_self] at hsub
  refine (hsub.eq_of_length ?_).symm
  exact ((List.mergeSort_perm found costlier).filter P).length_eq.symm

/-- A list by descending cost has the literals of cost two first. -/
theorem filter_append_filter_of_sorted (h : found.Pairwise fun a b => b.cost ≤ a.cost) :
    found.filter (·.cost = 2) ++ found.filter (·.cost ≠ 2) = found := by
  induction found with
  | nil => rfl
  | cons l found ih =>
      obtain ⟨hl, hrest⟩ := List.pairwise_cons.mp h
      have hle := l.cost_le
      by_cases htwo : l.cost = 2
      · rw [List.filter_cons_of_pos (by simpa using htwo),
          List.filter_cons_of_neg (by simpa using htwo), List.cons_append, ih hrest]
      · have hless : ∀ m ∈ l :: found, m.cost ≠ 2 := by
          intro m hm
          rcases List.mem_cons.mp hm with rfl | hm
          · exact htwo
          · have := hl m hm
            omega
        have hnone : (l :: found).filter (·.cost = 2) = [] :=
          List.filter_eq_nil_iff.mpr fun m hm => by simpa using hless m hm
        have hall : (l :: found).filter (·.cost ≠ 2) = l :: found :=
          List.filter_eq_self.mpr fun m hm => by simpa using hless m hm
        rw [hnone, hall, List.nil_append]

/-- Among literals with a cost, the costliest go first and no others change places. -/
theorem filter_append_filter_eq (hcost : ∀ l ∈ found, l.cost ≠ 0) :
    found.filter (·.cost = 2) ++ found.filter (·.cost ≠ 2) = costliestFirst found := by
  rw [← filter_append_filter_of_sorted (costliestFirst_sorted found), filter_costliestFirst,
    filter_costliestFirst]
  · intro a ha b hb
    obtain ⟨hma, hna⟩ := List.mem_filter.mp ha
    obtain ⟨hmb, hnb⟩ := List.mem_filter.mp hb
    rw [Literal.cost_eq_one (hcost a hma) (by simpa using hna),
      Literal.cost_eq_one (hcost b hmb) (by simpa using hnb)]
  · intro a ha b hb
    have ha' : a.cost = 2 := by simpa using (List.mem_filter.mp ha).2
    have hb' : b.cost = 2 := by simpa using (List.mem_filter.mp hb).2
    rw [ha', hb']

end Sorting

/-! ## Picking from a queue -/

/-- Up to `n` values taken out of a queue one after the other, each with the highest priority of
what is left in it. -/
inductive Drains {α : Type} : List (α × Nat) → Nat → List α → Prop where
  | full (queue : List (α × Nat)) : Drains queue 0 []
  | empty (n : Nat) : Drains [] n []
  | pop {queue rest : List (α × Nat)} {entry : α × Nat} {n : Nat} {picked : List α}
      (hqueue : queue.Perm (entry :: rest)) (hmax : ∀ e ∈ rest, e.2 ≤ entry.2)
      (hrest : Drains rest n picked) : Drains queue (n + 1) (entry.1 :: picked)

/-- If no two priorities are equal, the queue leaves no choice. -/
theorem drains_iff {α : Type} {queue sorted : List (α × Nat)} (hperm : queue.Perm sorted)
    (hsorted : sorted.Pairwise fun a b => b.2 < a.2) {n : Nat} {picked : List α} :
    Drains queue n picked ↔ picked = (sorted.take n).map Prod.fst := by
  induction n generalizing queue sorted picked with
  | zero =>
      constructor
      · rintro (_ | _)
        · rfl
        · rfl
      · rintro rfl
        exact .full queue
  | succ n ih =>
      cases sorted with
      | nil =>
          obtain rfl := hperm.eq_nil
          constructor
          · intro h
            cases h with
            | empty => rfl
            | pop hqueue _ _ => exact absurd hqueue.symm.eq_nil (by simp)
          · rintro rfl
            exact .empty _
      | cons first sorted =>
          obtain ⟨hfirst, hrest⟩ := List.pairwise_cons.mp hsorted
          constructor
          · intro h
            cases h with
            | empty => exact absurd hperm.symm.eq_nil (by simp)
            | @pop _ rest entry _ picked hqueue hmax hpicked =>
                have hsame := hqueue.symm.trans hperm
                -- two entries of highest priority would be two with the same priority
                have hentry : entry = first := by
                  have hmem : entry ∈ first :: sorted := hsame.subset (by simp)
                  have hmem' : first ∈ entry :: rest := hsame.symm.subset (by simp)
                  rcases List.mem_cons.mp hmem with he | he
                  · exact he
                  · rcases List.mem_cons.mp hmem' with hf | hf
                    · exact hf.symm
                    · have := hfirst entry he
                      have := hmax first hf
                      omega
                subst hentry
                rw [List.take_succ_cons, List.map_cons,
                  (ih ((List.perm_cons entry).mp hsame) hrest).mp hpicked]
          · rintro rfl
            exact .pop hperm (fun e he => Nat.le_of_lt (hfirst e he))
              ((ih (List.Perm.refl sorted) hrest).mpr rfl)

/-- The queue of the model is one that gives entries of highest priority. -/
theorem drains_drain {α : Type} (queue : List (α × Nat)) (n : Nat) :
    Drains queue n (drain n queue) := by
  induction n generalizing queue with
  | zero => exact .full queue
  | succ n ih =>
      unfold drain
      split
      · next hpop =>
          obtain rfl := popMax_eq_none_iff.mp hpop
          exact .empty _
      · next hpop =>
          obtain ⟨hperm, hmax⟩ := popMax_spec hpop
          exact .pop hperm hmax (ih _)

section Ranked

variable {found : List Literal} {a b : Literal × Nat}

/-- The queue holds the literals that were found. -/
theorem map_fst_ranked (found : List Literal) : (ranked found).map Prod.fst = found := by
  refine List.ext_getElem (by simp [ranked]) fun i _ _ => ?_
  simp [ranked]

/-- The cost decides about the priority, however early a literal comes. -/
theorem lt_of_cost_lt (ha : a ∈ ranked found) (hb : b ∈ ranked found)
    (h : b.1.cost < a.1.cost) : b.2 < a.2 := by
  obtain ⟨i, hi, rfl⟩ := List.mem_mapIdx.mp ha
  obtain ⟨j, hj, rfl⟩ := List.mem_mapIdx.mp hb
  have := Nat.mul_le_mul_right found.length (Nat.succ_le_of_lt h)
  dsimp only at this ⊢
  rw [Nat.succ_mul] at this
  omega

/-- Of equally costly literals the earlier one has the higher priority. -/
theorem ranked_pairwise (found : List Literal) :
    (ranked found).Pairwise fun a b => b.1.cost = a.1.cost → b.2 < a.2 := by
  rw [List.pairwise_iff_getElem]
  intro i j hi hj hij
  simp only [ranked, List.length_mapIdx] at hi hj
  simp only [ranked, List.getElem_mapIdx]
  intro h
  rw [h]
  omega

/-- The priorities descend strictly along the literals by cost. -/
theorem ranked_sorted (hcost : ∀ l ∈ found, l.cost ≠ 0) :
    ((ranked found).filter (·.1.cost = 2) ++ (ranked found).filter (·.1.cost ≠ 2)).Pairwise
      fun a b => b.2 < a.2 := by
  have htwo : ∀ e ∈ (ranked found).filter (·.1.cost = 2), e.1.cost = 2 := fun e he => by
    simpa using (List.mem_filter.mp he).2
  have hone : ∀ e ∈ (ranked found).filter (·.1.cost ≠ 2), e.1.cost = 1 := by
    intro e he
    obtain ⟨hmem, hne⟩ := List.mem_filter.mp he
    have hmem' : e.1 ∈ found := by
      rw [← map_fst_ranked found]
      exact List.mem_map_of_mem hmem
    exact Literal.cost_eq_one (hcost e.1 hmem') (by simpa using hne)
  refine List.pairwise_append.mpr ⟨?_, ?_, fun a ha b hb => ?_⟩
  · refine ((ranked_pairwise found).filter _).imp_of_mem fun ha hb h => h ?_
    rw [htwo _ ha, htwo _ hb]
  · refine ((ranked_pairwise found).filter _).imp_of_mem fun ha hb h => h ?_
    rw [hone _ ha, hone _ hb]
  · refine lt_of_cost_lt (List.mem_filter.mp ha).1 (List.mem_filter.mp hb).1 ?_
    rw [htwo a ha, hone b hb]
    omega

/-- The priorities leave the queue no choice: what it gives are the costliest literals, the earlier
ones first. -/
theorem drains_ranked_iff (hcost : ∀ l ∈ found, l.cost ≠ 0) {n : Nat} {picked : List Literal} :
    Drains (ranked found) n picked ↔ picked = (costliestFirst found).take n := by
  have hfilter : ∀ P : Literal → Bool,
      ((ranked found).filter fun e => P e.1).map Prod.fst = found.filter P := by
    intro P
    nth_rewrite 2 [← map_fst_ranked found]
    exact List.filter_map.symm
  have hperm : (ranked found).Perm
      ((ranked found).filter (·.1.cost = 2) ++ (ranked found).filter (·.1.cost ≠ 2)) := by
    simpa using (List.filter_append_perm (fun e => decide (e.1.cost = 2)) (ranked found)).symm
  rw [drains_iff hperm (ranked_sorted hcost), ← filter_append_filter_eq hcost, List.map_take,
    List.map_append, hfilter (·.cost = 2), hfilter (·.cost ≠ 2)]

end Ranked

/-! ## What lifting does -/

/-- Slot counts are words, so the slots that are left are what subtraction gives unless there were
far less than none. -/
theorem freeSlots_eq {slots : Int} {names : Nat} (h : -2 ^ 63 ≤ slots - names) :
    freeSlots slots names = slots - names := by
  have hword : UInt64.size = 18446744073709551616 := rfl
  unfold freeSlots
  split
  · exact Int.bmod_eq_of_le (by omega) (by omega)
  · rfl

/-- An operand is the name of its constant afterwards if it is one of the chosen literals, and
otherwise what it was. -/
inductive Value.Lifted (chosen : List Literal) : Value → Value → Prop where
  | constant {l : Literal} (hl : l ∈ chosen) : Lifted chosen (.literal l) (.name l.constantName)
  | other {v : Value} (hv : ∀ l ∈ chosen, v ≠ .literal l) : Lifted chosen v v

/-- The store `t` is what `s` becomes when the chosen literals are lifted: live instructions have
other operands, and everything else is as it was. -/
structure Store.LiftsTo (chosen : List Literal) (s t : Store) : Prop where
  size : t.slots.size = s.slots.size
  head : t.head = s.head
  tail : t.tail = s.tail
  temps : t.temps = s.temps
  live : ∀ id slot, s.slot? id = some slot → slot.live = true →
    ∃ args, List.Forall₂ (Value.Lifted chosen) slot.inst.args args ∧
      t.slot? id = some { slot with inst := { slot.inst with args } }
  removed : ∀ id slot, s.slot? id = some slot → slot.live = false → t.slot? id = some slot

/-- What lifting puts in place of an operand is as it should be. -/
theorem lifted_liftOperand (chosen : List Literal) (v : Value) :
    v.Lifted chosen (liftOperand chosen v) := by
  unfold liftOperand
  split
  · rename_i l
    by_cases hl : l ∈ chosen
    · rw [if_pos (by simpa using hl)]
      exact .constant hl
    · rw [if_neg (by simpa using hl)]
      refine .other fun m hm e => hl ?_
      rwa [Value.literal.inj e]
  · rename_i v hv
    exact .other fun l _ e => hv l e

namespace Program

variable {p : Program}

@[simp] theorem order_liftOperands (chosen : List Literal) (p : Program) (id : InstId) :
    (p.liftOperands chosen id).order = p.order := rfl

@[simp] theorem size_liftOperands (chosen : List Literal) (p : Program) (id : InstId) :
    (p.liftOperands chosen id).size = p.size := rfl

/-- Lifting from several instructions changes the operands of these. -/
theorem inst_foldl_liftOperands (chosen : List Literal) {ids : List InstId} (hn : ids.Nodup)
    (p : Program) (x : InstId) :
    (ids.foldl (liftOperands chosen) p).inst x =
      if x ∈ ids then { p.inst x with args := (p.inst x).args.map (liftOperand chosen) }
      else p.inst x :=
  inst_foldl_modify _ hn p x

/-- Lifting sweeps over the program also if it has chosen nothing, with no effect then. -/
theorem lift_eq_foldl (p : Program) (slots : Int) :
    p.lift slots = p.order.foldl (liftOperands (p.chooseLiterals slots)) p := by
  have hnothing : ∀ ids : List InstId, ids.foldl (liftOperands []) p = p := by
    intro ids
    induction ids with
    | nil => rfl
    | cons id ids ih =>
        have hmap : (p.inst id).args.map (liftOperand []) = (p.inst id).args :=
          List.map_id'' (fun v => by cases v <;> rfl) _
        have hid : liftOperands [] p id = p := modify_eq_self (by rw [hmap])
        rw [List.foldl_cons, hid, ih]
  unfold lift
  split
  · rename_i hempty
    rw [List.isEmpty_iff.mp hempty, hnothing]
  · exact sweep_eq_foldl (order_liftOperands _) p

theorem order_lift (p : Program) (slots : Int) : (p.lift slots).order = p.order := by
  rw [lift_eq_foldl, order_foldl_of_same (order_liftOperands _)]

/-- Lifting works on every live instruction by itself. -/
theorem inst_lift (hn : p.order.Nodup) (slots : Int) (x : InstId) : (p.lift slots).inst x =
    if x ∈ p.order then
      { p.inst x with args := (p.inst x).args.map (liftOperand (p.chooseLiterals slots)) }
    else p.inst x := by
  rw [lift_eq_foldl, inst_foldl_liftOperands _ hn]

theorem size_lift (p : Program) (slots : Int) : (p.lift slots).size = p.size := by
  rw [lift_eq_foldl, ← sweep_eq_foldl (order_liftOperands _), size_sweep (size_liftOperands _)]

/-- The chosen literals are the costliest candidates that there are slots for. -/
theorem chooseLiterals_eq (p : Program) (slots : Int) : p.chooseLiterals slots =
    (costliestFirst p.candidates).take (freeSlots slots p.names.card).toNat := by
  rw [chooseLiterals, length_externalNames, costlyLiterals_eq]
  exact (drains_ranked_iff p.cost_of_mem_candidates).mp (drains_drain _ _)

end Program

/-- Where nothing is chosen, nothing happens. -/
theorem lift_of_nothing_chosen {w : Workspace} {p : Program} (hw : w.store.Holds p) {slots : Int}
    (h : p.chooseLiterals slots = []) : lift slots w = .ok () w := by
  obtain ⟨w', hrun, -⟩ := computes_chooseLiterals hw.known slots w hw
  have hsame : id w' = id w := (Keeps.chooseLiterals slots).of_ok hrun
  rw [lift, bind_of_ok hrun, h]
  exact congrArg _ hsame

/-- A store that holds the program after lifting differs as lifting says. -/
theorem Store.Holds.liftsTo {s t : Store} {p : Program} {slots : Int} (hs : s.Holds p)
    (ht : t.Holds (p.lift slots)) (htemps : t.temps = s.temps) :
    s.LiftsTo (p.chooseLiterals slots) t := by
  have hslot := hs.slot?_eq ht (p.order_lift slots) (p.size_lift slots)
  have hinst := Program.inst_lift hs.nodup slots
  refine ⟨?_, ?_, ?_, htemps, fun id slot hid hlive => ?_, fun id slot hid hdead => ?_⟩
  · rw [ht.size, hs.size, p.size_lift]
  · rw [ht.head, hs.head, p.order_lift]
  · rw [ht.tail, hs.tail, p.order_lift]
  · rw [hslot id, hid, hinst id, if_pos ((hs.live id slot hid).mp hlive), ← hs.inst_of_slot hid]
    refine ⟨_, ?_, rfl⟩
    rw [List.forall₂_map_right_iff, List.forall₂_same]
    exact fun v _ => lifted_liftOperand _ v
  · have hgone : id ∉ p.order := fun hm => by simp [(hs.live id slot hid).mpr hm] at hdead
    rw [hslot id, hid, hinst id, if_neg hgone, ← hs.inst_of_slot hid]
    rfl

/-- With `n` slots left, lifting takes the first `n` of the literals with a cost, sorted by
descending cost and otherwise as they occur; these are also what a priority queue gives. It puts a
name in place of each of them, everywhere in the live program, and changes nothing else. -/
theorem lift_takes_costliest {w : Workspace} {p : Program} (hw : w.store.Holds p) (slots : Int) :
    let n := freeSlots slots p.names.card
    let chosen := (costliestFirst p.candidates).take n.toNat
    (-2 ^ 63 ≤ slots - p.names.card → n = slots - p.names.card) ∧
    (∀ picked, Drains (ranked p.candidates) n.toNat picked ↔ picked = chosen) ∧
    ∃ w', lift slots w = .ok () w' ∧ w.store.LiftsTo chosen w'.store ∧ (n ≤ 0 → w' = w) := by
  intro n chosen
  obtain ⟨w', hrun, hholds⟩ := computes_lift hw.known slots w hw
  have hchosen : p.chooseLiterals slots = chosen := p.chooseLiterals_eq slots
  refine ⟨freeSlots_eq, fun _ => drains_ranked_iff p.cost_of_mem_candidates, w', hrun, ?_,
    fun hn => ?_⟩
  · rw [← hchosen]
    exact hw.liftsTo hholds ((Keeps.lift aside_temps slots).of_ok hrun)
  · have hnone : chosen = [] := by
      simp only [chosen, Int.toNat_of_nonpos hn, List.take_zero]
    rw [lift_of_nothing_chosen hw (hchosen.trans hnone)] at hrun
    exact ((EStateM.Result.ok.inj hrun).2).symm

/-- With two slots left, the two earliest of three literals of cost two are lifted, although a
cheaper one comes first. -/
theorem lift_takes_earliest_of_costliest :
    let source := "a = add_f(2.5, 0.1)\nb = foo(0.1, 100000, 3, 0.5)\nT_x = bar(a, 0.7, 2.5)\n"
    let lifted := "a = add_f(2.5, C_f_0_1)\nb = foo(C_f_0_1, C_i_100000, 3, 0.5)\n" ++
      "T_x = bar(a, 0.7, 2.5)\n"
    let chosen := [⟨.float, 0x3dcccccd⟩, .ofInt 100000]
    ∃ w w', Source.load source.toUTF8.toList {} = .ok (.ok ()) w ∧
      w.store.program.names.card = 2 ∧ (costliestFirst w.store.program.candidates).take 2 = chosen ∧
      Drains (ranked w.store.program.candidates) 2 chosen ∧ lift 4 w = .ok () w' ∧
      w.store.LiftsTo chosen w'.store ∧ w'.store.program.listing = lifted := by
  intro source lifted chosen
  have hruns : ∃ w ∈ after? (Source.load source.toUTF8.toList) {},
      w.store.program.names.card = 2 ∧ w.store.program.chooseLiterals 4 = chosen ∧
      ∃ w' ∈ left? (lift 4) w, w'.store.program.listing = lifted := by
    decide +kernel
  obtain ⟨w, hread, hcard, hchosen, w', hdone, htext⟩ := hruns
  obtain ⟨_, hload⟩ := exists_of_after? hread
  obtain ⟨_, hlift⟩ := exists_of_left? hdone
  rw [Program.chooseLiterals_eq, hcard] at hchosen
  obtain ⟨-, hdrains, w'', hrun, hlifts, -⟩ :=
    lift_takes_costliest (Source.loaded_of_load hload).fresh.holds 4
  rw [hlift, EStateM.Result.ok.injEq] at hrun
  obtain ⟨-, rfl⟩ := hrun
  rw [hcard] at hdrains hlifts
  have hpicked := (hdrains chosen).mpr hchosen.symm
  exact ⟨w, w', hload, hcard, hchosen, hpicked, hlift, hchosen ▸ hlifts, htext⟩

end Straightline
