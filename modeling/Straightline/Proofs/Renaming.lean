import Straightline.Proofs.Preservation
import Straightline.Proofs.Rendering
import Straightline.Proofs.Runs

/-!
# Renaming producers after the moves that read them

A producer that takes over the destination of a move writes the name where the producer stands,
before everything that stood between the two. This keeps the runs of a program in which nothing in
between reads or writes the name (`sameRuns_of_renameMoves`). The pass does not look at what is in
between, and where something reads the name there the result changes (`renameMoves_overtakes_read`).

Between the producer and the move the two runs disagree about one name: the renamed program has
written it already. `Hoists` is the relation between their states, with one lemma for the producer,
one for the move and one for any other instruction. A visit finds the producer and the move as they
were read, but for what their references lead to, so a condition on the program that was read is
enough for the whole walk.
-/

set_option autoImplicit false

namespace Straightline

namespace Program

/-- No instruction between `a` and `b` reads or writes the name `n`. -/
def Untouched (p : Program) (n : String) (a b : InstId) : Prop :=
  ∀ y ∈ p.order, p.Precedes a y → p.Precedes y b →
    .name n ∉ (p.inst y).args ∧ ¬ p.Defines y n

instance (p : Program) (n : String) (a b : InstId) : Decidable (p.Untouched n a b) :=
  inferInstanceAs (Decidable (∀ y ∈ p.order, p.Precedes a y → p.Precedes y b →
    .name n ∉ (p.inst y).args ∧ ¬ p.Defines y n))

/-- Where a move is the only consumer of a temporary and writes a name, nothing between the two
reads or writes that name. -/
def TargetsUntouched (p : Program) : Prop :=
  ∀ id ∈ p.order, ∀ user ∈ p.order, (p.inst id).isTemp = true → p.consumers id = [user] →
    (p.inst user).op = Opcode.move → (p.inst user).args = [.ref id] →
    (p.inst user).isTemp = false → p.Untouched (p.inst user).dst id user

instance (p : Program) : Decidable p.TargetsUntouched :=
  inferInstanceAs (Decidable (∀ id ∈ p.order, ∀ user ∈ p.order, (p.inst id).isTemp = true →
    p.consumers id = [user] → (p.inst user).op = Opcode.move → (p.inst user).args = [.ref id] →
    (p.inst user).isTemp = false → p.Untouched (p.inst user).dst id user))

/-! ## One renaming -/

/-- The instruction `user` moves the temporary `id`. -/
structure MovedBy (p : Program) (id user : InstId) : Prop where
  mem : user ∈ p.order
  temp : (p.inst id).isTemp = true
  op : (p.inst user).op = Opcode.move
  args : (p.inst user).args = [.ref id]

/-- The producer `id` takes over the move `user`. -/
def renamed (p : Program) (id user : InstId) : Program :=
  p.takeOver id user (p.inst user).dst (p.inst user).uses

section Renamed

variable {p : Program} {id user x : InstId} (hp : p.Consistent) (hm : p.MovedBy id user)

include hp hm

/-- The producer precedes the move. -/
theorem MovedBy.precedes : p.Precedes id user :=
  (hp.refs user hm.mem id (by simp [hm.args])).1

/-- The producer is not the move. -/
theorem MovedBy.ne : id ≠ user := (hm.precedes hp).ne hp.nodup

omit hm in
/-- After the renaming the move is gone. -/
theorem mem_order_renamed : x ∈ (p.renamed id user).order ↔ x ≠ user ∧ x ∈ p.order :=
  hp.nodup.mem_erase_iff

/-- Opcodes stay, and references to the move lead to the producer. -/
theorem inst_renamed (hx : x ∈ p.order) (hxu : x ≠ user) :
    ∃ dst uses, (p.renamed id user).inst x =
      { (p.inst x).replace (.ref user) (.ref id) with dst, uses } := by
  by_cases hxid : x = id
  · subst hxid
    exact ⟨_, _, inst_takeOver_self hp hm.mem (hm.ne hp) hx _⟩
  · exact ⟨_, _, inst_takeOver_of_ne hp hm.mem hxu hx hxid _⟩

/-- The producer writes the name that the move wrote. -/
theorem defines_renamed_self (n : String) :
    (p.renamed id user).Defines id n ↔ p.Defines user n := by
  have hid := (hm.precedes hp).left_mem
  have hmem : id ∈ (p.renamed id user).order := (mem_order_renamed hp).mpr ⟨hm.ne hp, hid⟩
  have hinst : (p.renamed id user).inst id = _ :=
    inst_takeOver_self hp hm.mem (hm.ne hp) hid _
  exact defines_iff_of_dst hm.mem hmem (by rw [hinst])

/-- Others write what they wrote. -/
theorem defines_renamed_of_ne (hx : x ∈ p.order) (hxu : x ≠ user) (hxid : x ≠ id) (n : String) :
    (p.renamed id user).Defines x n ↔ p.Defines x n := by
  have hmem : x ∈ (p.renamed id user).order := (mem_order_renamed hp).mpr ⟨hxu, hx⟩
  have hinst : (p.renamed id user).inst x = _ :=
    inst_takeOver_of_ne hp hm.mem hxu hx hxid _
  exact defines_iff_of_dst hx hmem (by rw [hinst]; rfl)

end Renamed

end Program

namespace Interpretation

open Program

variable {V : Type*} {I : Interpretation V} {p q : Program} {id user x : InstId}
  {left right : List InstId} {s t : State V}

/-- Where `left` has been passed: values agree, and so do the names, except that between the
producer and the move the renamed program has written the name of the move already. -/
structure Hoists (p : Program) (id user : InstId) (left : List InstId) (s t : State V) : Prop where
  values : ∀ x ∈ left, x ≠ user → t.values x = s.values x
  moved : user ∈ left → s.values user = s.values id
  names : ∀ n, (p.Defines user n → id ∈ left → user ∈ left) → t.names n = s.names n
  early : ∀ n, p.Defines user n → id ∈ left → user ∉ left → t.names n = s.values id

section Hoists

variable (hp : p.Consistent) (hm : p.MovedBy id user)

include hp hm

/-- An instruction computes the same if the names that it reads hold the same. -/
theorem Hoists.result (h : Hoists p id user left s t) (ho : p.order = left ++ x :: right)
    (hxu : x ≠ user) (hnames : ∀ n, .name n ∈ (p.inst x).args → t.names n = s.names n) :
    I.result t ((p.renamed id user).inst x) = I.result s (p.inst x) := by
  have hx : x ∈ p.order := by
    rw [ho]
    simp
  have hleft : ∀ {r}, p.Precedes r x ↔ r ∈ left := precedes_iff_mem_left hp.nodup ho
  obtain ⟨dst, uses, hinst⟩ := inst_renamed hp hm hx hxu
  rw [hinst]
  unfold Interpretation.result Inst.replace
  dsimp only
  rw [List.map_map]
  congr 1
  apply List.map_congr_left
  intro v hv
  show I.operand t (if v = .ref user then .ref id else v) = I.operand s v
  cases v with
  | literal l => rfl
  | name n => exact hnames n hv
  | ref r =>
      have hpre := (hp.refs x hx r hv).1
      by_cases hr : r = user
      · subst hr
        have hid : id ∈ left := hleft.mp ((hm.precedes hp).trans hp.nodup hpre)
        rw [if_pos rfl]
        exact (h.values id hid (hm.ne hp)).trans (h.moved (hleft.mp hpre)).symm
      · rw [if_neg (by simpa using hr)]
        exact h.values r (hleft.mp hpre) hr

/-- The producer runs: the renamed program writes the name early. -/
theorem Hoists.producer (h : Hoists p id user left s t) (ho : p.order = left ++ id :: right) :
    Hoists p id user (left ++ [id]) (I.step p s id) (I.step (p.renamed id user) t id) := by
  have hne := hm.ne hp
  have hid : id ∈ p.order := (hm.precedes hp).left_mem
  have hleft : ∀ {r}, p.Precedes r id ↔ r ∈ left := precedes_iff_mem_left hp.nodup ho
  have hidleft : id ∉ left := fun hl => (hleft.mpr hl).ne hp.nodup rfl
  have huser : user ∉ left ++ [id] := by
    intro hl
    rcases List.mem_append.mp hl with hl | hl
    · exact (hm.precedes hp).asymm hp.nodup (hleft.mpr hl)
    · exact hne (List.mem_singleton.mp hl).symm
  have hresult : I.result t ((p.renamed id user).inst id) = I.result s (p.inst id) :=
    h.result hp hm ho hne fun n _ => h.names n fun _ hl => absurd hl hidleft
  have hmem : id ∈ (p.renamed id user).order := (mem_order_renamed hp).mpr ⟨hne, hid⟩
  refine ⟨fun y hy hyu => ?_, fun hl => absurd hl huser, fun n hn => ?_, fun n hd _ _ => ?_⟩
  · by_cases hyid : y = id
    · rw [hyid, values_step_self, values_step_self, hresult]
    · rw [values_step_of_ne hyid, values_step_of_ne hyid]
      exact h.values y (by simpa [hyid] using hy) hyu
  · have hnot : ¬ p.Defines user n := fun hd => huser (hn hd (by simp))
    have hnot' : ¬ (p.renamed id user).Defines id n := fun hd =>
      hnot ((defines_renamed_self hp hm n).mp hd)
    rw [names_step_of_not_defines hmem hnot',
      names_step_of_not_defines hid (not_defines_of_isTemp hm.temp)]
    exact h.names n fun hd => absurd hd hnot
  · rw [names_step_of_defines ((defines_renamed_self hp hm n).mpr hd), values_step_self, hresult]

/-- The move runs in the one program only, and the names agree again. -/
theorem Hoists.move (h : Hoists p id user left s t) (hmove : ∀ v, I.op Opcode.move [v] = v)
    (ho : p.order = left ++ user :: right) :
    Hoists p id user (left ++ [user]) (I.step p s user) t := by
  have hne := hm.ne hp
  have hleft : ∀ {r}, p.Precedes r user ↔ r ∈ left := precedes_iff_mem_left hp.nodup ho
  have hid : id ∈ left := hleft.mp (hm.precedes hp)
  have huser : user ∉ left := fun hl => (hleft.mpr hl).ne hp.nodup rfl
  have hresult : I.result s (p.inst user) = s.values id := by
    rw [Interpretation.result, hm.op, hm.args]
    exact hmove _
  refine ⟨fun y hy hyu => ?_, fun _ => ?_, fun n _ => ?_, fun n _ _ hl => absurd (by simp) hl⟩
  · rw [values_step_of_ne hyu]
    exact h.values y (by simpa [hyu] using hy) hyu
  · rw [values_step_self, values_step_of_ne hne, hresult]
  · by_cases hd : p.Defines user n
    · rw [names_step_of_defines hd, hresult]
      exact h.early n hd hid huser
    · rw [names_step_of_not_defines hm.mem hd]
      exact h.names n fun hd' => absurd hd' hd

/-- Any other instruction runs in both programs. Where the names disagree it has nothing to do with
the name in question. -/
theorem Hoists.other (h : Hoists p id user left s t) (ho : p.order = left ++ x :: right)
    (hxid : x ≠ id) (hxu : x ≠ user) (hfree : ∀ n, p.Defines user n → p.Untouched n id user) :
    Hoists p id user (left ++ [x]) (I.step p s x) (I.step (p.renamed id user) t x) := by
  have hx : x ∈ p.order := by
    rw [ho]
    simp
  have hleft : ∀ {r}, p.Precedes r x ↔ r ∈ left := precedes_iff_mem_left hp.nodup ho
  have hmem : ∀ {y}, y ≠ x → (y ∈ left ++ [x] ↔ y ∈ left) := fun hy => by simp [hy]
  have hbetween : ∀ n, p.Defines user n → id ∈ left → user ∉ left →
      .name n ∉ (p.inst x).args ∧ ¬ p.Defines x n := by
    intro n hd hid huser
    have hpre := (precedes_total hx hm.mem hxu).resolve_right fun hb => huser (hleft.mp hb)
    exact hfree n hd x hx (hleft.mpr hid) hpre
  have hresult : I.result t ((p.renamed id user).inst x) = I.result s (p.inst x) := by
    refine h.result hp hm ho hxu fun n hread => h.names n fun hd hid => ?_
    by_contra huser
    exact (hbetween n hd hid huser).1 hread
  have hxq : x ∈ (p.renamed id user).order := (mem_order_renamed hp).mpr ⟨hxu, hx⟩
  have hwrites := defines_renamed_of_ne hp hm hx hxu hxid
  refine ⟨fun y hy hyu => ?_, fun hl => ?_, fun n hn => ?_, fun n hd hid huser => ?_⟩
  · by_cases hyx : y = x
    · rw [hyx, values_step_self, values_step_self, hresult]
    · rw [values_step_of_ne hyx, values_step_of_ne hyx]
      exact h.values y ((hmem hyx).mp hy) hyu
  · rw [values_step_of_ne hxu.symm, values_step_of_ne hxid.symm]
    exact h.moved ((hmem hxu.symm).mp hl)
  · by_cases hd : p.Defines x n
    · rw [names_step_of_defines hd, names_step_of_defines ((hwrites n).mpr hd), hresult]
    · rw [names_step_of_not_defines hx hd,
        names_step_of_not_defines hxq fun hd' => hd ((hwrites n).mp hd')]
      refine h.names n fun hdu hid => (hmem hxu.symm).mp (hn hdu ((hmem hxid.symm).mpr hid))
  · have hid' := (hmem hxid.symm).mp hid
    have huser' : user ∉ left := fun hl => huser ((hmem hxu.symm).mpr hl)
    have hnot := (hbetween n hd hid' huser').2
    rw [names_step_of_not_defines hxq fun hd' => hnot ((hwrites n).mp hd'),
      values_step_of_ne hxid.symm]
    exact h.early n hd hid' huser'

/-- The runs of the two programs, from any place on. -/
theorem Hoists.foldl (hmove : ∀ v, I.op Opcode.move [v] = v)
    (hfree : ∀ n, p.Defines user n → p.Untouched n id user) (h : Hoists p id user left s t)
    (ho : p.order = left ++ right) :
    Hoists p id user p.order (right.foldl (I.step p) s)
      ((right.filter (· ≠ user)).foldl (I.step (p.renamed id user)) t) := by
  induction right generalizing left s t with
  | nil =>
      rw [List.append_nil] at ho
      rw [ho]
      exact h
  | cons x right ih =>
      have hnext : p.order = (left ++ [x]) ++ right := by
        rw [ho]
        simp
      by_cases hxu : x = user
      · subst hxu
        rw [List.filter_cons_of_neg (by simp)]
        exact ih (h.move hp hm hmove ho) hnext
      · rw [List.filter_cons_of_pos (by simpa using hxu)]
        by_cases hxid : x = id
        · subst hxid
          exact ih (h.producer hp hm ho) hnext
        · exact ih (h.other hp hm ho hxid hxu hfree) hnext

/-- A producer may take over a move if nothing in between reads or writes the name of the move. -/
theorem sameRuns_renamed (hmove : ∀ v, I.op Opcode.move [v] = v)
    (hfree : ∀ n, p.Defines user n → p.Untouched n id user) :
    I.SameRuns p (p.renamed id user) := by
  intro s s' hs
  have hstart : Hoists p id user [] s s' :=
    ⟨by simp, by simp, fun n _ => congrFun hs.symm n, by simp⟩
  have hend := hstart.foldl hp hm hmove hfree rfl
  have horder : (p.renamed id user).order = p.order.filter (· ≠ user) := by
    show p.order.erase user = _
    rw [hp.nodup.erase_eq_filter]
    refine List.filter_congr fun x _ => ?_
    rw [Bool.eq_iff_iff]
    simp
  rw [← horder] at hend
  refine ⟨funext fun n => hend.names n fun _ _ => hm.mem, fun x hx => ?_⟩
  obtain ⟨hxu, hxp⟩ := (mem_order_renamed hp).mp hx
  exact hend.values x hxp hxu

end Hoists

end Interpretation

/-! ## The walk -/

/-- The same but for what the references lead to. -/
structure Inst.SameButRefs (i j : Inst) : Prop where
  dst : i.dst = j.dst
  op : i.op = j.op
  uses : i.uses = j.uses
  length : i.args.length = j.args.length
  names : ∀ n, .name n ∈ i.args → .name n ∈ j.args

/-- Leading a reference elsewhere changes nothing but references. -/
theorem Inst.SameButRefs.replace {i j : Inst} (h : i.SameButRefs j) (old new : InstId) :
    (i.replace (.ref old) (.ref new)).SameButRefs j where
  dst := h.dst
  op := h.op
  uses := h.uses
  length := by
    rw [← h.length]
    exact List.length_map _
  names n hn := by
    rcases Program.mem_args_replace hn with ⟨hnew, -⟩ | ⟨hn, -⟩
    · exact absurd hnew (by simp)
    · exact h.names n hn

namespace Program

variable {V : Type*} {I : Interpretation V} {p q : Program} {id user : InstId}
  {rest : List InstId}

/-- What holds at every visit: what is still ahead is as it was read, but for its references. -/
structure Renaming (I : Interpretation V) (p : Program) (rest : List InstId) (q : Program) : Prop
    extends I.Walk p rest q where
  untouched : ∀ x ∈ rest, x ∈ q.order →
    (q.inst x).SameButRefs { p.inst x with uses := p.consumers x }

theorem Renaming.start (hp : p.Valid) : Renaming I p p.order p.analyze where
  toWalk := .start hp
  untouched x hx _ := by
    rw [inst_analyze hx]
    exact ⟨rfl, rfl, rfl, rfl, fun _ hn => hn⟩

theorem Renaming.tail (h : Renaming I p (id :: rest) q) : Renaming I p rest q where
  toWalk := h.toWalk.tail
  untouched x hx := h.untouched x (List.mem_cons_of_mem id hx)

/-- The move is the only consumer of the producer in the program that was read, so nothing between
them touches its name there; and what is between them has not been changed since. -/
theorem Renaming.free (h : Renaming I p (id :: rest) q) (hp : p.Valid) (hk : p.TargetsUntouched)
    (hid : id ∈ q.order) (hm : q.MovedBy id user) (huses : (q.inst id).uses = [user]) :
    ∀ n, q.Defines user n → q.Untouched n id user := by
  have hpre := hm.precedes h.consistent
  have hproducer := h.untouched id (by simp) hid
  have hahead : ∀ {y}, q.Precedes id y →
      (q.inst y).SameButRefs { p.inst y with uses := p.consumers y } := fun hy =>
    h.untouched _ (List.mem_cons_of_mem id (h.mem_rest hp.nodup hy)) hy.right_mem
  have hmove := hahead hpre
  have hconsumers : p.consumers id = [user] := hproducer.uses.symm.trans huses
  have hread : .ref id ∈ (p.inst user).args := by
    have hcount := count_consumers hp.nodup id user
    rw [hconsumers, List.count_singleton_self, if_pos (h.order.subset hm.mem)] at hcount
    exact List.count_pos_iff.mp (by omega)
  have hargs : (p.inst user).args = [.ref id] := by
    have hlength := hmove.length
    rw [hm.args] at hlength
    obtain ⟨v, hv⟩ := List.length_eq_one_iff.mp hlength.symm
    dsimp only at hv
    rw [hv, List.mem_singleton] at hread
    rw [hv, hread]
  rintro n ⟨-, ht, hd⟩ y hy hidy hyu
  have hsame := hahead hidy
  have htarget : p.Untouched (p.inst user).dst id user := by
    apply hk id (h.order.subset hid) user (h.order.subset hm.mem) _ hconsumers
      (hmove.op.symm.trans hm.op) hargs
    · rw [Inst.isTemp, ← hmove.dst]
      exact ht
    · rw [Inst.isTemp, ← hproducer.dst]
      exact hm.temp
  have hn : (p.inst user).dst = n := hmove.dst.symm.trans hd
  obtain ⟨hnoread, hnowrite⟩ := htarget y (h.order.subset hy) (List.Sublist.trans hidy h.order)
    (List.Sublist.trans hyu h.order)
  rw [hn] at hnoread hnowrite
  have hdy : q.Defines y n ↔ p.Defines y n :=
    defines_iff_of_dst (h.order.subset hy) hy hsame.dst
  exact ⟨fun hr => hnoread (hsame.names n hr), fun hd => hnowrite (hdy.mp hd)⟩

/-- Taking over a move keeps what holds at every visit. -/
theorem Renaming.takeOver (h : Renaming I p (id :: rest) q)
    (hmove : ∀ v, I.op Opcode.move [v] = v) (hp : p.Valid) (hk : p.TargetsUntouched)
    (hid : id ∈ q.order) (hu : user ∈ q.order) (hs : (q.inst id).soleUser? = some user)
    {dst : String} {uses : List InstId} (hmv : (q.inst user).moveFrom? id = some (dst, uses)) :
    Renaming I p rest (q.takeOver id user dst uses) := by
  have hq := h.consistent
  have hq' := hq.takeOver hid hu hs hmv
  obtain ⟨huses, ht⟩ := soleUser?_eq_some hs
  obtain ⟨hop, hargs, rfl, rfl⟩ := moveFrom?_eq_some hmv
  have hm : q.MovedBy id user := ⟨hu, ht, hop, hargs⟩
  have hruns := Interpretation.sameRuns_renamed hq hm hmove (h.free hp hk hid hm huses)
  refine ⟨h.toWalk.step hq' List.erase_sublist hruns, fun x hx hlive => ?_⟩
  obtain ⟨hxu, hxq⟩ := (mem_order_renamed hq).mp hlive
  have hxid : x ≠ id := by
    rintro rfl
    exact (List.nodup_cons.mp (h.ahead.sublist.nodup hp.nodup)).1 hx
  rw [inst_takeOver_of_ne hq hu hxu hxq hxid]
  exact (h.untouched x (List.mem_cons_of_mem id hx) hxq).replace user id

/-- A visit keeps what holds at every visit. -/
theorem Renaming.step (h : Renaming I p (id :: rest) q) (hmove : ∀ v, I.op Opcode.move [v] = v)
    (hp : p.Valid) (hk : p.TargetsUntouched) (hid : id ∈ q.order) :
    Renaming I p rest (q.renameMove id) := by
  unfold renameMove
  split
  · exact h.tail
  · rename_i user hs
    split
    · rename_i hu
      split
      · exact h.tail
      · rename_i dst uses hmv
        exact h.takeOver hmove hp hk hid hu hs hmv
    · exact h.tail

/-- Renaming keeps the runs of a program if all targets are untouched. -/
theorem walk_renameMoves (hmove : ∀ v, I.op Opcode.move [v] = v) (hp : p.Valid)
    (hk : p.TargetsUntouched) : I.Walk p [] (p.analyze.sweep renameMove) := by
  refine (foldLive_induction_ahead (fun rest _ q => Renaming I p rest q) ?_ ?_
    p.analyze.order ?_).toWalk
  · intro id rest _ q h _
    exact h.tail
  · intro id rest _ q h hid
    exact h.step hmove hp hk hid
  · rw [order_analyze]
    exact .start hp

end Program

/-- Renaming producers in a program that was read and analysed keeps what every run leaves in the
names and what every instruction that stays computes, if nothing between a temporary and the move
that alone reads it touches the name that the move writes. -/
theorem sameRuns_of_renameMoves {V : Type*} {I : Interpretation V} {source : Source.Bytes}
    {w₀ w : Workspace} (hload : Source.load source w₀ = .ok (.ok ()) w)
    (hmove : ∀ v, I.op Opcode.move [v] = v) (hfree : w.store.program.TargetsUntouched) :
    ∃ w', (do analyze; renameMoves) w = .ok () w' ∧
      w'.store.program.order.Sublist w.store.program.order ∧
      I.SameRuns w.store.program w'.store.program := by
  have hfresh := (Source.loaded_of_load hload).fresh
  have hclosed := (computes_analyze hfresh.valid.closed).2
  exact (Program.walk_renameMoves hmove hfresh.valid hfree).exists_sameRuns hload
    (visits_renameMove.forEach hclosed).1

/-- A name that the producer itself reads, a name that is written and read again later, and a chain
of a temporary and a move into another one. -/
theorem sameRuns_of_renamed_sums :
    let source := "T_0 = add_f(x, y)\nz = mul_f(y, y)\nx = move(T_0)\nT_1 = add_f(x, z)\n" ++
      "T_2 = move(T_1)\ny = sub_f(T_2, x)\nx = mul_f(x, y)\n"
    let output := "x = add_f(x, y)\nz = mul_f(y, y)\nT_2 = add_f(x, z)\n" ++
      "y = sub_f(T_2, x)\nx = mul_f(x, y)\n"
    ∃ w w', Source.load source.toUTF8.toList {} = .ok (.ok ()) w ∧
      w.store.program.TargetsUntouched ∧ (do analyze; renameMoves) w = .ok () w' ∧
      w'.store.program.listing = output ∧
      Interpretation.words.SameRuns w.store.program w'.store.program := by
  intro source output
  have hruns : ∃ w ∈ after? (Source.load source.toUTF8.toList) {},
      w.store.program.TargetsUntouched ∧
      ∃ w' ∈ left? (do analyze; renameMoves) w, w'.store.program.listing = output := by
    decide +kernel
  obtain ⟨w, hread, hfree, w', hdone, htext⟩ := hruns
  obtain ⟨_, hload⟩ := exists_of_after? hread
  obtain ⟨_, hrenamed⟩ := exists_of_left? hdone
  obtain ⟨w'', hrun, -, hsame⟩ :=
    sameRuns_of_renameMoves hload Interpretation.lawful_words.move hfree
  rw [hrenamed, EStateM.Result.ok.injEq] at hrun
  obtain ⟨-, rfl⟩ := hrun
  exact ⟨w, w', hload, hfree, hrenamed, htext, hsame⟩

/-- A name that is read between the producer and the move: it is overwritten before it is read. -/
theorem renameMoves_overtakes_read :
    let source := "T_0 = add_f(a, b)\nz = move(x)\nx = move(T_0)\n"
    let output := "x = add_f(a, b)\nz = move(x)\n"
    let words := Interpretation.words
    let s : State UInt32 := ⟨fun _ => 0, fun n => if n = "a" then 2 else if n = "b" then 3 else 7⟩
    ∃ w w', Source.load source.toUTF8.toList {} = .ok (.ok ()) w ∧
      (∀ v, words.op Opcode.move [v] = v) ∧ (do analyze; renameMoves) w = .ok () w' ∧
      w'.store.program.listing = output ∧ (words.run w.store.program s).names "z" = 7 ∧
      (words.run w'.store.program s).names "z" = 5 := by
  intro source output words s
  have hruns : ∃ w ∈ after? (Source.load source.toUTF8.toList) {},
      ∃ w' ∈ left? (do analyze; renameMoves) w, w'.store.program.listing = output ∧
      (words.run w.store.program s).names "z" = 7 ∧
      (words.run w'.store.program s).names "z" = 5 := by decide +kernel
  obtain ⟨w, hread, w', hdone, htext, hbefore, hafter⟩ := hruns
  obtain ⟨_, hload⟩ := exists_of_after? hread
  obtain ⟨_, hrenamed⟩ := exists_of_left? hdone
  exact ⟨w, w', hload, Interpretation.lawful_words.move, hrenamed, htext, hbefore, hafter⟩

end Straightline
