import Straightline.Proofs.Reading
import Straightline.Proofs.Soundness

/-!
# Runs of programs that overwrite names

Where a name is written more than once, what an operand reads depends on where it stands, and no
single state explains a program. This file is about the state that each instruction runs in
(`Interpretation.before`). The value of an instruction stays what it was when the instruction ran
(`values_before`), and a name keeps what it holds between two instructions if nothing between them
writes it (`names_before`).

`SameRuns` says that the runs of one program end as those of another do. It holds when temporaries
are taken out and every instruction that stays computes what it did, in the state that it ran in
(`KeepsResults.sameRuns`). Only runs of the first program appear in that condition. A pass that
keeps the runs at every visit does so as a whole (`Walk`).
-/

set_option autoImplicit false

namespace Straightline

namespace Program

/-- No instruction between `a` and `b` writes the name `n`. -/
def Unwritten (p : Program) (n : String) (a b : InstId) : Prop :=
  ∀ y ∈ p.order, p.Precedes a y → p.Precedes y b → ¬ p.Defines y n

instance (p : Program) (a b : InstId) : Decidable (p.Precedes a b) :=
  inferInstanceAs (Decidable ([a, b].Sublist p.order))

instance (p : Program) (id : InstId) (n : String) : Decidable (p.Defines id n) :=
  inferInstanceAs (Decidable (id ∈ p.order ∧ (p.inst id).isTemp = false ∧ (p.inst id).dst = n))

instance (p : Program) (n : String) (a b : InstId) : Decidable (p.Unwritten n a b) :=
  inferInstanceAs (Decidable (∀ y ∈ p.order, p.Precedes a y → p.Precedes y b → ¬ p.Defines y n))

variable {p q : Program} {a b x y : InstId} {n : String}

/-- What an instruction writes is up to its destination. -/
theorem defines_iff_of_dst (hx : x ∈ p.order) (hy : y ∈ q.order)
    (h : (q.inst y).dst = (p.inst x).dst) : q.Defines y n ↔ p.Defines x n := by
  simp only [Defines, Inst.isTemp, h, hx, hy]

/-- A temporary writes no name. -/
theorem not_defines_of_isTemp (h : (p.inst x).isTemp = true) : ¬ p.Defines x n := by
  rintro ⟨-, htemp, -⟩
  rw [h] at htemp
  exact absurd htemp (by simp)

/-- Of two instructions, one stands before the other. -/
theorem precedes_total (ha : a ∈ p.order) (hb : b ∈ p.order) (hne : a ≠ b) :
    p.Precedes a b ∨ p.Precedes b a := by
  obtain ⟨left, right, ho⟩ := List.append_of_mem hb
  rw [ho, List.mem_append, List.mem_cons] at ha
  rcases ha with ha | ha | ha
  · refine .inl ?_
    rw [Precedes, ho]
    exact (List.singleton_sublist.mpr ha).append (List.singleton_sublist.mpr (by simp))
  · exact absurd ha hne
  · refine .inr ?_
    rw [Precedes, ho]
    exact (List.cons_sublist_cons.mpr (List.singleton_sublist.mpr ha)).trans
      (List.sublist_append_right left _)

end Program

namespace Interpretation

variable {V : Type*} (I : Interpretation V)

/-- The state that an instruction of a program runs in. -/
def before (p : Program) (s : State V) (id : InstId) : State V :=
  (p.order.takeWhile (· ≠ id)).foldl (I.step p) s

/-- Runs of `q` end with the names as runs of `p` do, and every instruction of `q` has the value
that it has in `p`. -/
def SameRuns (p q : Program) : Prop :=
  ∀ s s' : State V, s.names = s'.names → (I.run q s').names = (I.run p s).names ∧
    ∀ x ∈ q.order, (I.run q s').values x = (I.run p s).values x

variable {I} {p q r : Program} {s : State V}

/-- Programs that run alike in turn run alike. -/
theorem SameRuns.trans (h₁ : I.SameRuns p q) (h₂ : I.SameRuns q r)
    (hsub : ∀ x ∈ r.order, x ∈ q.order) : I.SameRuns p r := by
  intro s s' hs
  obtain ⟨hnames, hvalues⟩ := h₁ s s' hs
  obtain ⟨hnames', hvalues'⟩ := h₂ s' s' rfl
  exact ⟨hnames'.trans hnames, fun x hx => (hvalues' x hx).trans (hvalues x (hsub x hx))⟩

/-! ## The state before an instruction -/

/-- The state that an instruction runs in is that after all instructions in front of it. -/
theorem before_of_split (hn : p.order.Nodup) {id : InstId} {left right : List InstId}
    (ho : p.order = left ++ id :: right) (s : State V) :
    I.before p s id = left.foldl (I.step p) s := by
  have hleft : ∀ x ∈ left, x ≠ id := by
    rintro x hx rfl
    rw [ho] at hn
    exact List.disjoint_of_nodup_append hn hx (by simp)
  have htake : p.order.takeWhile (· ≠ id) = left := by
    rw [ho, List.takeWhile_append_of_pos fun x hx => by simpa using hleft x hx]
    simp
  rw [before, htake]

/-- An instruction that has run leads from the state before it to the state before a later one. -/
theorem before_eq_foldl (hn : p.order.Nodup) {a b : InstId} (hab : p.Precedes a b) (s : State V) :
    ∃ between : List InstId, (∀ y ∈ between, p.Precedes a y ∧ p.Precedes y b) ∧
      I.before p s b = between.foldl (I.step p) (I.step p (I.before p s a) a) := by
  obtain ⟨left, right, ho⟩ := List.append_of_mem hab.right_mem
  have hleft : ∀ {y}, p.Precedes y b ↔ y ∈ left := Program.precedes_iff_mem_left hn ho
  obtain ⟨l, between, hl⟩ := List.append_of_mem (hleft.mp hab)
  have ho' : p.order = l ++ a :: (between ++ b :: right) := by
    rw [ho, hl]
    simp
  refine ⟨between, fun y hy => ⟨?_, hleft.mpr (by simp [hl, hy])⟩, ?_⟩
  · have hsub : [a, y].Sublist (a :: between) :=
      List.cons_sublist_cons.mpr (List.singleton_sublist.mpr hy)
    rw [Program.Precedes, ho, hl]
    exact hsub.trans ((List.sublist_append_right l _).trans (List.sublist_append_left _ _))
  · rw [before_of_split hn ho, before_of_split hn ho', hl, List.foldl_append, List.foldl_cons]

/-- An instruction keeps the value that it had when it ran. -/
theorem values_before (hn : p.order.Nodup) {a b : InstId} (hab : p.Precedes a b) (s : State V) :
    (I.before p s b).values a = I.result (I.before p s a) (p.inst a) := by
  obtain ⟨between, hbetween, hrun⟩ := before_eq_foldl (I := I) hn hab s
  rw [hrun, values_foldl_of_not_mem (fun ha => (hbetween a ha).1.ne hn rfl), values_step_self]

/-- A name keeps what it holds as long as nothing writes it. -/
theorem names_before (hn : p.order.Nodup) {a b : InstId} {n : String} (hab : p.Precedes a b)
    (ha : ¬ p.Defines a n) (h : p.Unwritten n a b) (s : State V) :
    (I.before p s b).names n = (I.before p s a).names n := by
  obtain ⟨between, hbetween, hrun⟩ := before_eq_foldl (I := I) hn hab s
  rw [hrun, names_foldl_of_not_defines, names_step_of_ne]
  · exact fun ht hd => ha ⟨hab.left_mem, ht, hd⟩
  · intro y hy ht hd
    obtain ⟨hay, hyb⟩ := hbetween y hy
    exact h y hyb.left_mem hay hyb ⟨hyb.left_mem, ht, hd⟩

/-- What an instruction read can be read again later, unless it was a name that has been written
since. -/
theorem operand_before (hp : p.Valid) {a b : InstId} (hab : p.Precedes a b) {v : Value}
    (hv : v ∈ (p.inst a).args)
    (h : ∀ n, v = .name n → ¬ p.Defines a n ∧ p.Unwritten n a b) (s : State V) :
    I.operand (I.before p s b) v = I.operand (I.before p s a) v := by
  cases v with
  | literal l => rfl
  | ref r =>
      have hra := (hp.refs a hab.left_mem r hv).1
      show (I.before p s b).values r = (I.before p s a).values r
      rw [values_before hp.nodup hra, values_before hp.nodup (hra.trans hp.nodup hab)]
  | name n => exact names_before hp.nodup hab (h n rfl).1 (h n rfl).2 s

/-- What a temporary computed can be computed again later, unless it read a name that has been
written since. -/
theorem result_before (hp : p.Valid) {a b : InstId} (hab : p.Precedes a b)
    (ht : (p.inst a).isTemp = true)
    (h : ∀ n, .name n ∈ (p.inst a).args → p.Unwritten n a b) (s : State V) :
    I.result (I.before p s b) (p.inst a) = I.result (I.before p s a) (p.inst a) := by
  apply result_congr
  intro v hv
  refine operand_before hp hab hv (fun n hn => ?_) s
  exact ⟨Program.not_defines_of_isTemp ht, h n (hn ▸ hv)⟩

/-! ## What a run writes -/

theorem names_step_of_defines {id : InstId} {n : String} (h : p.Defines id n) :
    (I.step p s id).names n = I.result s (p.inst id) := by
  obtain ⟨-, htemp, rfl⟩ := h
  exact names_step_self htemp

theorem names_step_of_not_defines {id : InstId} {n : String} (hid : id ∈ p.order)
    (h : ¬ p.Defines id n) : (I.step p s id).names n = s.names n :=
  names_step_of_ne fun ht hd => h ⟨hid, ht, hd⟩

/-! ## Temporaries taken out -/

/-- Temporaries are taken out of `p`. What stays writes the names that it wrote and computes what it
computed, in the state that it ran in. -/
structure KeepsResults (I : Interpretation V) (p q : Program) : Prop where
  valid : q.Valid
  order : q.order.Sublist p.order
  gone : ∀ x ∈ p.order, x ∉ q.order → (p.inst x).isTemp = true
  writes : ∀ x ∈ q.order, ∀ n, q.Defines x n ↔ p.Defines x n
  result : ∀ (s : State V), ∀ x ∈ q.order,
    I.result (I.before p s x) (q.inst x) = I.result (I.before p s x) (p.inst x)

/-- Where `left` has been passed, the instructions that stay have their values, and the names hold
the same. -/
structure Follows (q : Program) (left : List InstId) (s t : State V) : Prop where
  values : ∀ x ∈ left, x ∈ q.order → t.values x = s.values x
  names : t.names = s.names

section Follows

variable {left right : List InstId} {t : State V} {x : InstId}

/-- An instruction computes the same in two states that agree on what it reads. -/
theorem Follows.result (h : Follows q left s t) {i : Inst}
    (hrefs : ∀ r, .ref r ∈ i.args → r ∈ left ∧ r ∈ q.order) : I.result t i = I.result s i := by
  apply result_congr
  intro v hv
  cases v with
  | literal l => rfl
  | ref r => exact h.values r (hrefs r hv).1 (hrefs r hv).2
  | name n => exact congrFun h.names n

/-- Only the longer program runs an instruction that was taken out. -/
theorem Follows.skip (h : Follows q left s t) (hx : x ∉ q.order)
    (ht : (p.inst x).isTemp = true) : Follows q (left ++ [x]) (I.step p s x) t := by
  constructor
  · intro y hy hyq
    have hyx : y ≠ x := by
      rintro rfl
      exact hx hyq
    rw [values_step_of_ne hyx]
    exact h.values y (by simpa [hyx] using hy) hyq
  · rw [h.names]
    funext n
    exact (names_step_of_ne fun htemp => absurd (htemp.symm.trans ht) (by simp)).symm

/-- Both programs run an instruction that stays. -/
theorem Follows.step (h : Follows q left s t) (hxp : x ∈ p.order) (hxq : x ∈ q.order)
    (hwrites : ∀ n, q.Defines x n ↔ p.Defines x n)
    (hresult : I.result t (q.inst x) = I.result s (p.inst x)) :
    Follows q (left ++ [x]) (I.step p s x) (I.step q t x) := by
  constructor
  · intro y hy hyq
    by_cases hyx : y = x
    · rw [hyx, values_step_self, values_step_self, hresult]
    · rw [values_step_of_ne hyx, values_step_of_ne hyx]
      exact h.values y (by simpa [hyx] using hy) hyq
  · funext n
    by_cases hd : q.Defines x n
    · rw [names_step_of_defines hd, names_step_of_defines ((hwrites n).mp hd), hresult]
    · have hd' : ¬ p.Defines x n := fun h' => hd ((hwrites n).mpr h')
      rw [names_step_of_not_defines hxq hd, names_step_of_not_defines hxp hd', h.names]

/-- The runs of the two programs, from any place on. -/
theorem KeepsResults.follows (h : I.KeepsResults p q) (hn : p.order.Nodup) {s₀ : State V}
    (ho : p.order = left ++ right) (hst : Follows q left (left.foldl (I.step p) s₀) t) :
    Follows q p.order (I.run p s₀) ((right.filter (· ∈ q.order)).foldl (I.step q) t) := by
  induction right generalizing left t with
  | nil =>
      rw [List.append_nil] at ho
      rw [run, ho]
      exact hst
  | cons x right ih =>
      have hxp : x ∈ p.order := by
        rw [ho]
        simp
      have hnext : p.order = (left ++ [x]) ++ right := by
        rw [ho]
        simp
      have hleft : (left ++ [x]).foldl (I.step p) s₀ = I.step p (left.foldl (I.step p) s₀) x := by
        rw [List.foldl_append]
        rfl
      by_cases hx : x ∈ q.order
      · have hrefs : ∀ r, .ref r ∈ (q.inst x).args → r ∈ left ∧ r ∈ q.order := by
          intro r hr
          have hpre := (h.valid.refs x hx r hr).1
          have hpre' : p.Precedes r x := List.Sublist.trans hpre h.order
          exact ⟨(Program.precedes_iff_mem_left hn ho).mp hpre', hpre.left_mem⟩
        have hresult : I.result t (q.inst x) =
            I.result (left.foldl (I.step p) s₀) (p.inst x) := by
          rw [hst.result hrefs, ← before_of_split hn ho]
          exact h.result s₀ x hx
        rw [List.filter_cons_of_pos (by simpa using hx), List.foldl_cons]
        exact ih hnext (hleft ▸ hst.step hxp hx (h.writes x hx) hresult)
      · rw [List.filter_cons_of_neg (by simpa using hx)]
        exact ih hnext (hleft ▸ hst.skip hx (h.gone x hxp hx))

end Follows

/-- Where what stays keeps its results, programs run alike. -/
theorem KeepsResults.sameRuns (h : I.KeepsResults p q) (hn : p.order.Nodup) :
    I.SameRuns p q := by
  intro s s' hs
  have hstart : Follows q [] (([] : List InstId).foldl (I.step p) s) s' := ⟨by simp, hs.symm⟩
  have hend := h.follows hn (List.nil_append p.order).symm hstart
  rw [filter_mem_eq_of_sublist hn h.order] at hend
  exact ⟨hend.names, fun x hx => hend.values x (h.order.subset hx) hx⟩

/-- One temporary is taken out, and the destinations of the others stay. -/
theorem KeepsResults.of_erase {z : InstId} (hn : p.order.Nodup) (hq : q.Valid)
    (ho : q.order = p.order.erase z) (ht : (p.inst z).isTemp = true)
    (hdst : ∀ x ∈ q.order, (q.inst x).dst = (p.inst x).dst)
    (hresult : ∀ (s : State V), ∀ x ∈ q.order,
      I.result (I.before p s x) (q.inst x) = I.result (I.before p s x) (p.inst x)) :
    I.KeepsResults p q := by
  refine ⟨hq, ho ▸ List.erase_sublist, fun x hx hxq => ?_, fun x hx n => ?_, hresult⟩
  · by_cases hxz : x = z
    · rw [hxz]
      exact ht
    · rw [ho, hn.mem_erase_iff] at hxq
      exact absurd ⟨hxz, hx⟩ hxq
  · exact Program.defines_iff_of_dst (List.mem_of_mem_erase (ho ▸ hx)) hx (hdst x hx)

/-- The references to one temporary are replaced by an operand that reads the same wherever they
stood, and the temporary is taken out. -/
theorem KeepsResults.of_replace {old : InstId} {v : Value} (hp : p.Valid) (hq : q.Valid)
    (ho : q.order = p.order.erase old) (ht : (p.inst old).isTemp = true)
    (hinst : ∀ x ∈ q.order, ∃ uses, q.inst x = { (p.inst x).replace (.ref old) v with uses })
    (hsame : ∀ (s : State V) x, p.Precedes old x → .ref old ∈ (p.inst x).args →
      I.operand (I.before p s x) (.ref old) = I.operand (I.before p s x) v) :
    I.KeepsResults p q := by
  refine .of_erase hp.nodup hq ho ht (fun x hx => ?_) (fun s x hx => ?_)
  · obtain ⟨uses, hx'⟩ := hinst x hx
    rw [hx']
    rfl
  · have hxp : x ∈ p.order := List.mem_of_mem_erase (ho ▸ hx)
    obtain ⟨uses, hx'⟩ := hinst x hx
    rw [hx']
    show I.result (I.before p s x) ((p.inst x).replace (.ref old) v) = _
    by_cases hread : .ref old ∈ (p.inst x).args
    · exact result_replace (p.inst x) (hsame s x (hp.refs x hxp old hread).1 hread)
    · rw [Program.replace_of_not_mem v hread]

/-- An analysis changes use-sets only. -/
theorem sameRuns_analyze (hp : p.Valid) : I.SameRuns p p.analyze := by
  have hmem : ∀ x ∈ p.analyze.order, x ∈ p.order := fun x hx => by
    rwa [Program.order_analyze] at hx
  refine KeepsResults.sameRuns ⟨hp.analyze.toValid, ?_, fun x hx hxq => ?_, fun x hx n => ?_,
    fun s x hx => ?_⟩ hp.nodup
  · rw [Program.order_analyze]
  · rw [Program.order_analyze] at hxq
    exact absurd hx hxq
  · exact Program.defines_iff_of_dst (hmem x hx) hx (by rw [Program.inst_analyze (hmem x hx)])
  · rw [Program.inst_analyze (hmem x hx)]
    rfl

/-! ## Walks -/

/-- A walk along the order of `p`, with `rest` still ahead, has come to the program `q`, whose runs
are those of `p`. -/
structure Walk (I : Interpretation V) (p : Program) (rest : List InstId) (q : Program) : Prop where
  consistent : q.Consistent
  order : q.order.Sublist p.order
  ahead : rest <:+ p.order
  runs : I.SameRuns p q

section Walk

variable {id y : InstId} {rest : List InstId}

theorem Walk.start (hp : p.Valid) : I.Walk p p.order p.analyze where
  consistent := hp.analyze
  order := by rw [Program.order_analyze]
  ahead := List.suffix_refl _
  runs := sameRuns_analyze hp

theorem Walk.tail (h : I.Walk p (id :: rest) q) : I.Walk p rest q :=
  { h with ahead := (List.suffix_cons id rest).trans h.ahead }

/-- A visit takes the walk on if it takes instructions out at most and keeps the runs. -/
theorem Walk.step (h : I.Walk p (id :: rest) q) (hr : r.Consistent)
    (ho : r.order.Sublist q.order) (hruns : I.SameRuns q r) : I.Walk p rest r where
  consistent := hr
  order := ho.trans h.order
  ahead := h.tail.ahead
  runs := h.runs.trans hruns fun _ hx => ho.subset hx

/-- What stands after the instruction at hand is still ahead. -/
theorem Walk.mem_rest (h : I.Walk p (id :: rest) q) (hn : p.order.Nodup)
    (hy : q.Precedes id y) : y ∈ rest := by
  obtain ⟨done, ho⟩ := h.ahead
  have hpre : p.Precedes id y := List.Sublist.trans hy h.order
  have hy' := hpre.right_mem
  rw [← ho, List.mem_append, List.mem_cons] at hy'
  rcases hy' with hy' | hy' | hy'
  · exact absurd ((Program.precedes_iff_mem_left hn ho.symm).mpr hy') (hpre.asymm hn)
  · exact absurd hy'.symm (hpre.ne hn)
  · exact hy'

/-- What stands before the instruction at hand is behind. -/
theorem Walk.not_mem_rest (h : I.Walk p (id :: rest) q) (hn : p.order.Nodup)
    (hy : q.Precedes y id) : y ∉ rest := by
  obtain ⟨done, ho⟩ := h.ahead
  have hpre : p.Precedes y id := List.Sublist.trans hy h.order
  have hdone : y ∈ done := (Program.precedes_iff_mem_left hn ho.symm).mp hpre
  rw [← ho] at hn
  exact fun hr => List.disjoint_of_nodup_append hn hdone (List.mem_cons_of_mem id hr)

/-- What is behind stands before the instruction at hand. -/
theorem Walk.precedes_of_not_mem (h : I.Walk p (id :: rest) q) (hn : p.order.Nodup)
    (hid : id ∈ q.order) (hy : y ∈ q.order) (hr : y ∉ id :: rest) : q.Precedes y id := by
  obtain ⟨hne, hr⟩ : y ≠ id ∧ y ∉ rest := by simpa using hr
  rcases Program.precedes_total hy hid hne with hpre | hpre
  · exact hpre
  · exact absurd (h.mem_rest hn hpre) hr

end Walk

/-- What an action makes of the analysed program, it leaves after an analysis of a program that was
read. -/
theorem exists_analyzed_of_load {source : Source.Bytes} {w₀ w : Workspace} {x : Action Unit}
    (hload : Source.load source w₀ = .ok (.ok ()) w)
    (hx : Computes x w.store.program.analyze () q) :
    ∃ w', (do analyze; x) w = .ok () w' ∧ w'.store.program = q := by
  have hfresh := (Source.loaded_of_load hload).fresh
  obtain ⟨w', hrun, hholds⟩ := hx.after_analyze hfresh.valid.closed w hfresh.holds
  exact ⟨w', hrun, hholds.program_eq⟩

/-- An action that ends a walk leaves a store whose runs are those of the program that was read. -/
theorem Walk.exists_sameRuns {source : Source.Bytes} {w₀ w : Workspace} {x : Action Unit}
    (h : I.Walk w.store.program [] q) (hload : Source.load source w₀ = .ok (.ok ()) w)
    (hx : Computes x w.store.program.analyze () q) :
    ∃ w', (do analyze; x) w = .ok () w' ∧
      w'.store.program.order.Sublist w.store.program.order ∧
      I.SameRuns w.store.program w'.store.program := by
  obtain ⟨w', hrun, hprogram⟩ := exists_analyzed_of_load hload hx
  refine ⟨w', hrun, ?_⟩
  rw [hprogram]
  exact ⟨h.order, h.runs⟩

end Interpretation

end Straightline
