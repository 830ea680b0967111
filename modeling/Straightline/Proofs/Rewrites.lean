import Mathlib.Data.List.Basic
import Mathlib.Logic.Relation
import Straightline.Proofs.Consistency

/-!
# What the passes can do

`Program.Rewrite` lists everything that one visit of any pass can do to a consistent program, with
the conditions under which it does so. Every pass is a chain of such steps
(`Program.rewrites_apply`), and every step keeps a consistent program consistent
(`Program.Rewrite.consistent`). A property that each step keeps therefore holds after any sequence
of passes.

The search for repeated computations is the one pass whose step says more than the visit itself
looks at: that the two instructions compute the same and in which order they stand comes from the
table that the walk carries along.
-/

set_option autoImplicit false

namespace Straightline

/-- One of the three algebraic rules. -/
def Rule.IsIdentity (rule : Rule) : Prop :=
  rule = .unitProduct ∨ rule = .unitProductSum ∨ rule = .reciprocal

/-- Takes instructions to build. -/
def Literal.Costly (l : Literal) : Prop := l.cost ≠ 0

namespace Program

/-- What one visit of a pass does when it does something. Literals are lifted only if they are in
`L`. -/
inductive Rewrite (L : Literal → Prop) : Program → Program → Prop where
  | analyze (p : Program) : Rewrite L p p.analyze
  | fuse {p : Program} {id user : InstId} {a b : Value} {fused : Inst} (hid : id ∈ p.order)
      (hu : user ∈ p.order) (hc : Fusion.candidate? (p.inst id) = some (a, b, user))
      (hf : Fusion.fuse? id a b (p.inst user) = some fused) : Rewrite L p (p.fuse id user a b fused)
  | simplify {p : Program} {id : InstId} {rule : Rule} {i : Inst} {e : Event}
      (hr : rule.IsIdentity) (hid : id ∈ p.order) (h : rule (p.inst id) = some (i, e)) :
      Rewrite L p (p.modify id fun _ => i)
  | drop {p : Program} {id : InstId} (hid : id ∈ p.order) (hd : (p.inst id).isDead = true) :
      Rewrite L p (p.remove id)
  | rename {p : Program} {id user : InstId} {dst : String} {uses : List InstId}
      (hid : id ∈ p.order) (hu : user ∈ p.order) (hs : (p.inst id).soleUser? = some user)
      (hm : (p.inst user).moveFrom? id = some (dst, uses)) :
      Rewrite L p (p.takeOver id user dst uses)
  | forward {p : Program} {id : InstId} {source : Value} {uses : List InstId}
      (hid : id ∈ p.order) (hf : (p.inst id).forwardable? = some (source, uses)) :
      Rewrite L p (p.bypass id source uses)
  | merge {p : Program} {first id : InstId} (hpre : p.Precedes first id)
      (hkey : (p.inst first).key = (p.inst id).key) (hf : (p.inst first).isTemp = true)
      (ht : (p.inst id).isTemp = true) : Rewrite L p (p.merge first id)
  | lift {p : Program} {chosen : List Literal} (hl : ∀ l ∈ chosen, L l) {id : InstId}
      (hid : id ∈ p.order) : Rewrite L p (p.liftOperands chosen id)

/-- Any number of steps. -/
def Rewrites (L : Literal → Prop) : Program → Program → Prop := Relation.ReflTransGen (Rewrite L)

variable {L : Literal → Prop}

/-! ## Each step keeps references and use-sets consistent -/

/-- However often a product is replaced by its consumer in a use-set, only the entries for the
consumer grow. -/
theorem count_iterate_replaceUses {id user u : InstId} (hu : u ≠ id) (huser : user ≠ id)
    (n : Nat) (l : List InstId) :
    ((fun uses => replaceUses uses id [user])^[n] l).count u =
      l.count u + if u = user then n else 0 := by
  induction n generalizing l with
  | zero => simp
  | succ n ih =>
      rw [Function.iterate_succ_apply, ih, replaceUses, List.count_append,
        List.count_filter (by simpa using hu), List.count_singleton]
      by_cases he : u = user
      · subst he
        simp
        omega
      · have he' : user ≠ u := fun e => he e.symm
        simp [he, he']

/-- What merging a product into its consumer leaves of each instruction. -/
theorem inst_fuse (p : Program) (id user : InstId) (a b : Value) (fused : Inst) (x : InstId) :
    (p.fuse id user a b fused).inst x = { (if x = user then fused else p.inst x) with
      uses := (fun uses => replaceUses uses id [user])^[[a, b].count (.ref x)]
        (if x = user then fused else p.inst x).uses } := by
  rw [fuse, inst_remove, inst_modifyUses, inst_modify, count_refsOf]

/-- After the merge the product is gone. -/
theorem order_fuse (p : Program) (id user : InstId) (a b : Value) (fused : Inst) :
    (p.fuse id user a b fused).order = p.order.erase id := by
  simp [fuse]

/-- Merging a product into its consumer keeps a program consistent. -/
theorem Consistent.fuse {p : Program} {id user : InstId} {a b : Value} {fused : Inst}
    (h : p.Consistent) (hid : id ∈ p.order) (hu : user ∈ p.order)
    (hc : Fusion.candidate? (p.inst id) = some (a, b, user))
    (hf : Fusion.fuse? id a b (p.inst user) = some fused) :
    (p.fuse id user a b fused).Consistent := by
  obtain ⟨-, hargs, huses⟩ := candidate?_eq_some hc
  obtain ⟨hdst, husesF⟩ := dst_uses_of_fuse? hf
  have hrefs : ∀ r, .ref r ∈ [a, b] → p.Precedes r id ∧ (p.inst r).isTemp = true :=
    fun r hr => h.refs id hid r (by rw [hargs]; exact hr)
  have hclosed := h.closed.fuse hu (fun r hr =>
    h.known r (hrefs r (mem_refsOf.mp hr)).1.left_mem) hf
  -- the product has one consumer, which refers to it once
  have hone : (p.inst user).args.count (.ref id) = 1 := by
    rw [← h.count id hid user hu, huses]
    simp
  have hnone : ∀ x ∈ p.order, x ≠ user → .ref id ∉ (p.inst x).args := fun x hx hxu =>
    h.not_mem_args hid hx (by simpa [huses] using hxu)
  have hpre : p.Precedes id user := (h.refs user hu id (List.count_pos_iff.mp (by omega))).1
  have hne : user ≠ id := fun e => hpre.ne h.nodup e.symm
  -- its operands replace the reference to it
  have hcount : ∀ r, r ≠ id →
      fused.args.count (.ref r) = [a, b].count (.ref r) + (p.inst user).args.count (.ref r) := by
    intro r hr
    have hr' : ¬ id = r := fun e => hr e.symm
    obtain ⟨y, ⟨-, hua | hua, rfl⟩ | ⟨-, hua, rfl⟩⟩ := fuse?_eq_some hf <;>
      rw [hua] <;> simp [List.count_cons, hr'] <;> omega
  have hmem : ∀ x ∈ (p.fuse id user a b fused).order, x ≠ id ∧ x ∈ p.order := fun x hx =>
    h.nodup.mem_erase_iff.mp (order_fuse p id user a b fused ▸ hx)
  have hdst' : ∀ x, ((p.fuse id user a b fused).inst x).dst = (p.inst x).dst := by
    intro x
    rw [inst_fuse]
    by_cases hx : x = user
    · simp [hx, hdst]
    · simp [hx]
  constructor
  case toValid =>
    refine ⟨hclosed.nodup, hclosed.known, fun x hx r hr => ?_, hclosed.uses⟩
    obtain ⟨hxid, hxo⟩ := hmem x hx
    have hstep : p.Precedes r x ∧ (p.inst r).isTemp = true ∧ r ≠ id := by
      rw [inst_fuse] at hr
      by_cases hxu : x = user
      · subst hxu
        rw [if_pos rfl] at hr
        rcases mem_args_of_fuse? hf hr with hr | hr
        · obtain ⟨hr₁, hr₂⟩ := hrefs r hr
          exact ⟨hr₁.trans h.nodup hpre, hr₂, hr₁.ne h.nodup⟩
        · -- the one reference to the product is gone
          have hrid : r ≠ id := by
            rintro rfl
            have h2 := hnone
            obtain ⟨y, ⟨-, hua | hua, rfl⟩ | ⟨-, hua, rfl⟩⟩ := fuse?_eq_some hf <;>
              rw [hua] at hone <;> simp [List.count_cons] at hone hr
            all_goals
              rcases hr with hr | hr | hr
              · exact (hrefs r (by simp [← hr])).1.ne h.nodup rfl
              · exact (hrefs r (by simp [← hr])).1.ne h.nodup rfl
              · exact hone hr.symm
          exact ⟨(h.refs x hxo r hr).1, (h.refs x hxo r hr).2, hrid⟩
      · rw [if_neg hxu] at hr
        refine ⟨(h.refs x hxo r hr).1, (h.refs x hxo r hr).2, ?_⟩
        rintro rfl
        exact hnone x hxo hxu hr
    obtain ⟨h₁, h₂, h₃⟩ := hstep
    refine ⟨?_, by rw [Inst.isTemp, hdst']; exact h₂⟩
    rw [Precedes, order_fuse]
    exact (precedes_remove h.nodup).mpr ⟨h₁, h₃, hxid⟩
  case count =>
    intro d hd u hu'
    obtain ⟨hdid, hdo⟩ := hmem d hd
    obtain ⟨huid, huo⟩ := hmem u hu'
    have huses' : (if d = user then fused else p.inst d).uses = (p.inst d).uses := by
      by_cases hdu : d = user
      · rw [if_pos hdu, husesF, hdu]
      · rw [if_neg hdu]
    rw [inst_fuse, inst_fuse, huses', count_iterate_replaceUses huid hne, h.count d hdo u huo]
    by_cases huu : u = user
    · subst huu
      simp only [if_true, hcount d hdid]
      omega
    · simp [huu]

/-- Nothing is replaced where the operand does not occur. -/
theorem replace_of_not_mem {i : Inst} {old : Value} (new : Value) (h : old ∉ i.args) :
    i.replace old new = i := by
  have : i.args.map (fun a => if a = old then new else a) = i.args := by
    conv_rhs => rw [← List.map_id i.args]
    apply List.map_congr_left
    intro a ha
    have : a ≠ old := fun e => h (e ▸ ha)
    simp [this]
  unfold Inst.replace
  rw [this]

/-- A redirection that knows all consumers replaces every reference. -/
theorem inst_redirect_of_covers {p : Program} {users : List InstId} {old u : InstId} (v : Value)
    (hc : .ref old ∈ (p.inst u).args → u ∈ users) (hu : u ∈ p.order) :
    (p.redirect users old v).inst u = (p.inst u).replace (.ref old) v := by
  rw [inst_redirect]
  by_cases hm : u ∈ users
  · rw [if_pos ⟨hm, hu⟩]
  · rw [if_neg fun h => hm h.1, replace_of_not_mem v fun h => hm (hc h)]

/-- A use-set that covers all readers of `old` has each as often as it reads `old`. -/
theorem count_redirected_of_covers {p : Program} {users : List InstId} {old u : InstId}
    (hc : .ref old ∈ (p.inst u).args → u ∈ users) (hu : u ∈ p.order) :
    (p.redirected users old).count u = (p.inst u).args.count (.ref old) := by
  rw [count_redirected]
  by_cases hm : u ∈ users
  · rw [if_pos ⟨hm, hu⟩]
  · rw [if_neg fun h => hm h.1]
    exact (List.count_eq_zero.mpr fun h => hm (hc h)).symm

/-- Where the producer of a move's operand takes over, the move is replaced by its producer. -/
theorem inst_takeOver_of_ne {p : Program} {id user u : InstId} (h : p.Consistent)
    (hu : user ∈ p.order) (hne : u ≠ user) (hmem : u ∈ p.order) (hid : u ≠ id) (dst : String) :
    (p.takeOver id user dst (p.inst user).uses).inst u =
      (p.inst u).replace (.ref user) (.ref id) := by
  have hmem' : u ∈ (p.remove user).order := (mem_order_remove h.nodup).mpr ⟨hne, hmem⟩
  rw [takeOver, inst_modify_of_ne _ hid]
  exact inst_redirect_of_covers (p := p.remove user) _ (fun ha => h.mem_uses hu hmem ha) hmem'

/-- The producer that takes over a move has its destination, and the consumers of the move as its
use-set. -/
theorem inst_takeOver_self {p : Program} {id user : InstId} (h : p.Consistent)
    (hu : user ∈ p.order) (hne : id ≠ user) (hid : id ∈ p.order) (dst : String) :
    (p.takeOver id user dst (p.inst user).uses).inst id =
      { (p.inst id).replace (.ref user) (.ref id) with
        dst, uses := (p.remove user).redirected (p.inst user).uses user } := by
  have hmem' : id ∈ (p.remove user).order := (mem_order_remove h.nodup).mpr ⟨hne, hid⟩
  rw [takeOver, inst_modify_self]
  rw [inst_redirect_of_covers (p := p.remove user) _ (fun ha => h.mem_uses hu hid ha) hmem']
  rfl

/-- Taking over the destination of a move keeps a program consistent. -/
theorem Consistent.takeOver {p : Program} {id user : InstId} {dst : String} {uses : List InstId}
    (h : p.Consistent) (hid : id ∈ p.order) (hu : user ∈ p.order)
    (hs : (p.inst id).soleUser? = some user)
    (hm : (p.inst user).moveFrom? id = some (dst, uses)) :
    (p.takeOver id user dst uses).Consistent := by
  obtain ⟨huses, -⟩ := soleUser?_eq_some hs
  obtain ⟨-, hargs, rfl, rfl⟩ := moveFrom?_eq_some hm
  have hpre : p.Precedes id user := (h.refs user hu id (by simp [hargs])).1
  have hne : id ≠ user := hpre.ne h.nodup
  have hclosed : (p.takeOver id user (p.inst user).dst (p.inst user).uses).Closed :=
    h.closed.takeOver hid (h.uses user hu)
  have hself := inst_takeOver_self h hu hne hid (p.inst user).dst
  have hother : ∀ x, x ≠ user → x ∈ p.order → x ≠ id → _ := fun x hxu hx hxid =>
    inst_takeOver_of_ne h hu hxu hx hxid (p.inst user).dst
  have hmem : ∀ x ∈ (p.takeOver id user (p.inst user).dst (p.inst user).uses).order,
      x ≠ user ∧ x ∈ p.order := fun x hx => h.nodup.mem_erase_iff.mp hx
  -- the move was the only one to refer to its producer
  have hnone : ∀ x ∈ p.order, x ≠ user → .ref id ∉ (p.inst x).args := fun x hx hxu =>
    h.not_mem_args hid hx (by simpa [huses] using hxu)
  refine h.substitute user (.ref id) rfl rfl ?_ ?_ ?_ hclosed.uses ?_
  · intro x hx
    obtain ⟨hxu, hxo⟩ := hmem x hx
    by_cases hxid : x = id
    · subst hxid
      rw [hself]
    · rw [hother x hxu hxo hxid]
  · intro r hr
    obtain rfl : id = r := by simpa using hr
    refine ⟨hpre, fun ht => ?_⟩
    rw [hself]
    exact ht
  · intro x hx r hr hxr
    obtain ⟨hxu, hxo⟩ := hmem x hx
    obtain ⟨hrx, ht⟩ := h.refs x hxo r hxr
    have hrid : r ≠ id := by
      rintro rfl
      exact hnone x hxo hxu hxr
    rw [hother r hr hrx.left_mem hrid]
    exact ht
  · intro d hd x hx
    obtain ⟨hdu, hdo⟩ := hmem d hd
    obtain ⟨hxu, hxo⟩ := hmem x hx
    by_cases hdid : d = id
    · subst hdid
      rw [hself, if_pos rfl, List.count_eq_zero.mpr (hnone x hxo hxu)]
      exact count_redirected_of_covers (p := p.remove user) (fun ha => h.mem_uses hu hxo ha)
        ((mem_order_remove h.nodup).mpr ⟨hxu, hxo⟩)
    · have hdid' : ¬ Value.ref id = .ref d := by simpa [eq_comm] using hdid
      rw [hother d hdu hdo hdid, if_neg hdid', Nat.zero_add]
      exact h.count d hdo x hxo

/-- What bypassing a move leaves of each instruction. -/
theorem inst_bypass {p : Program} {id u : InstId} (h : p.Consistent) (hid : id ∈ p.order)
    (source : Value) (hu : u ∈ p.order) :
    (p.bypass id source (p.inst id).uses).inst u = { (p.inst u).replace (.ref id) source with
      uses := (fun old => replaceUses old id (p.redirected (p.inst id).uses id))^[[source].count
        (.ref u)] (p.inst u).uses } := by
  rw [bypass, inst_remove, inst_modifyUses, count_refsOf,
    inst_redirect_of_covers source (fun ha => h.mem_uses hid hu ha) hu]
  rfl

/-- Bypassing a move keeps a program consistent. -/
theorem Consistent.bypass {p : Program} {id : InstId} {source : Value} {uses : List InstId}
    (h : p.Consistent) (hid : id ∈ p.order)
    (hf : (p.inst id).forwardable? = some (source, uses)) :
    (p.bypass id source uses).Consistent := by
  obtain ⟨-, -, hargs, rfl⟩ := forwardable?_eq_some hf
  have hsource : ∀ r, source = .ref r → p.Precedes r id ∧ (p.inst r).isTemp = true :=
    fun r hr => h.refs id hid r (by simp [hargs, hr])
  have hclosed : (p.bypass id source (p.inst id).uses).Closed :=
    h.closed.bypass (h.uses id hid) fun r hr => h.known r (hsource r hr).1.left_mem
  have horder : (p.bypass id source (p.inst id).uses).order = p.order.erase id := by
    simp [Program.bypass]
  have hmem : ∀ x ∈ (p.bypass id source (p.inst id).uses).order, x ≠ id ∧ x ∈ p.order :=
    fun x hx => h.nodup.mem_erase_iff.mp (horder ▸ hx)
  have hinst := fun x hx => inst_bypass (u := x) h hid source hx
  refine h.substitute id source horder (by simp [Program.bypass]) ?_ ?_ ?_ ?_ ?_
  · intro x hx
    rw [hinst x (hmem x hx).2]
  · intro r hr
    obtain ⟨hpre, ht⟩ := hsource r hr
    refine ⟨hpre, fun _ => ?_⟩
    rw [hinst r hpre.left_mem]
    exact ht
  · intro x hx r _ hxr
    obtain ⟨hrx, ht⟩ := h.refs x (hmem x hx).2 r hxr
    rw [hinst r hrx.left_mem]
    exact ht
  · intro d hd u hu
    simpa [Known, Program.bypass] using hclosed.uses d hd u hu
  · intro d hd x hx
    obtain ⟨hdid, hdo⟩ := hmem d hd
    obtain ⟨hxid, hxo⟩ := hmem x hx
    rw [hinst d hdo]
    by_cases hsd : source = .ref d
    · -- the producer of the source: the move goes, its consumers come
      rw [if_pos hsd, hsd, List.count_singleton_self, Function.iterate_one, replaceUses,
        List.count_append, List.count_filter (by simpa using hxid), h.count d hdo x hxo,
        count_redirected_of_covers (fun ha => h.mem_uses hid hxo ha) hxo, Nat.add_comm]
    · have hcount : [source].count (.ref d) = 0 :=
        List.count_eq_zero.mpr (by simpa [eq_comm] using hsd)
      rw [if_neg hsd, hcount, Function.iterate_zero_apply, h.count d hdo x hxo, Nat.zero_add]

/-- What merging a repeated computation into the first one leaves of each instruction. -/
theorem inst_merge {p : Program} {id u : InstId} (h : p.Consistent) (first : InstId)
    (hid : id ∈ p.order) (hu : u ∈ p.order) :
    (p.merge first id).inst u = { (p.inst u).replace (.ref id) (.ref first) with
      uses := (p.inst u).uses ++ if u = first then p.redirected (p.inst id).uses id else [] } := by
  have hcov := inst_redirect_of_covers (.ref first) (fun ha => h.mem_uses hid hu ha) hu
  rw [merge, inst_remove, inst_modify]
  by_cases hf : u = first
  · subst hf
    rw [if_pos rfl, hcov, if_pos rfl]
    rfl
  · rw [if_neg hf, hcov, if_neg hf, List.append_nil]
    rfl

/-- Merging a repeated computation keeps a program consistent. -/
theorem Consistent.merge {p : Program} {first id : InstId} (h : p.Consistent)
    (hpre : p.Precedes first id) (hf : (p.inst first).isTemp = true) :
    (p.merge first id).Consistent := by
  have hid := hpre.right_mem
  have hclosed := h.closed.merge hpre.left_mem hid
  have hmem : ∀ x ∈ (p.merge first id).order, x ≠ id ∧ x ∈ p.order := fun x hx =>
    h.nodup.mem_erase_iff.mp hx
  have hinst : ∀ x, x ∈ p.order → _ := fun x hx => inst_merge h first hid hx
  refine h.substitute id (.ref first) rfl rfl ?_ ?_ ?_ hclosed.uses ?_
  · intro x hx
    rw [hinst x (hmem x hx).2]
  · intro r hr
    obtain rfl : first = r := by simpa using hr
    refine ⟨hpre, fun _ => ?_⟩
    rw [hinst first hpre.left_mem]
    exact hf
  · intro x hx r _ hxr
    obtain ⟨hrx, ht⟩ := h.refs x (hmem x hx).2 r hxr
    rw [hinst r hrx.left_mem]
    exact ht
  · intro d hd x hx
    obtain ⟨-, hdo⟩ := hmem d hd
    obtain ⟨-, hxo⟩ := hmem x hx
    rw [hinst d hdo, List.count_append, h.count d hdo x hxo]
    by_cases hdf : d = first
    · subst hdf
      rw [if_pos rfl, if_pos rfl, count_redirected_of_covers (fun ha => h.mem_uses hid hxo ha) hxo,
        Nat.add_comm]
    · have hdf' : ¬ Value.ref first = .ref d := by simpa [eq_comm] using hdf
      rw [if_neg hdf, if_neg hdf', List.count_nil, Nat.add_zero, Nat.zero_add]

/-- An algebraic rule keeps all references of an instruction. -/
theorem count_args_of_rule {rule : Rule} (hr : rule.IsIdentity) {i i' : Inst} {e : Event}
    (h : rule i = some (i', e)) (r : InstId) :
    i'.args.count (.ref r) = i.args.count (.ref r) := by
  have hone : Value.one ≠ .ref r := by
    unfold Value.one
    simp
  rcases hr with rfl | rfl | rfl
  · obtain ⟨x, -, hargs, rfl⟩ := unitProduct_eq_some h
    rw [hargs, List.count_cons_of_ne hone]
  · obtain ⟨a, b, -, hargs, rfl⟩ := unitProductSum_eq_some h
    rw [hargs]
    simp [List.count_cons, hone]
  · obtain ⟨x, k, -, hargs, rfl⟩ := reciprocal_eq_some h
    rw [hargs]
    simp [List.count_cons]

/-- An algebraic rule keeps the destination and the use-set. -/
theorem dst_uses_of_rule {rule : Rule} (hr : rule.IsIdentity) {i i' : Inst} {e : Event}
    (h : rule i = some (i', e)) : i'.dst = i.dst ∧ i'.uses = i.uses := by
  rcases hr with rfl | rfl | rfl
  · obtain ⟨x, -, -, rfl⟩ := unitProduct_eq_some h
    exact ⟨rfl, rfl⟩
  · obtain ⟨a, b, -, -, rfl⟩ := unitProductSum_eq_some h
    exact ⟨rfl, rfl⟩
  · obtain ⟨x, k, -, -, rfl⟩ := reciprocal_eq_some h
    exact ⟨rfl, rfl⟩

/-- Lifting keeps all references of an instruction. -/
theorem count_map_liftOperand (chosen : List Literal) (args : List Value) (r : InstId) :
    (args.map (liftOperand chosen)).count (.ref r) = args.count (.ref r) := by
  induction args with
  | nil => rfl
  | cons v args ih =>
      rw [List.map_cons, List.count_cons, List.count_cons, ih]
      congr 1
      cases v with
      | literal l => by_cases hl : l ∈ chosen <;> simp [liftOperand, hl]
      | ref _ => rfl
      | name _ => rfl

/-- No instruction refers to a dead one. -/
theorem not_mem_args_of_isDead {p : Program} {id : InstId} (h : p.Consistent) (hid : id ∈ p.order)
    (hd : (p.inst id).isDead = true) : ∀ u ∈ p.order, .ref id ∉ (p.inst u).args := by
  intro u hu
  have huses : (p.inst id).uses = [] := by
    unfold Inst.isDead at hd
    simpa using (Bool.and_eq_true_iff.mp hd).2
  exact h.not_mem_args hid hu (by simp [huses])

/-- Every step keeps a consistent program consistent. -/
theorem Rewrite.consistent {p q : Program} (hr : Rewrite L p q) (h : p.Consistent) :
    q.Consistent := by
  cases hr with
  | analyze => exact h.toValid.analyze
  | fuse hid hu hc hf => exact h.fuse hid hu hc hf
  | simplify hr _ hi =>
      obtain ⟨hd, hu⟩ := dst_uses_of_rule hr hi
      exact h.modify hd hu (count_args_of_rule hr hi)
  | drop hid hd => exact h.remove (not_mem_args_of_isDead h hid hd)
  | rename hid hu hs hm => exact h.takeOver hid hu hs hm
  | forward hid hf => exact h.bypass hid hf
  | merge hpre _ hf _ => exact h.merge hpre hf
  | @lift chosen _ _ _ => exact h.modify rfl rfl (count_map_liftOperand chosen _)

/-- Passes keep a program consistent. -/
theorem Rewrites.consistent {p q : Program} (hr : Rewrites L p q) (h : p.Consistent) :
    q.Consistent := by
  induction hr with
  | refl => exact h
  | tail _ hstep ih => exact hstep.consistent ih

/-! ## Where operands come from -/

/-- The opcodes of the instructions whose operands a consumer may take over. -/
def passedOn : List String := [Opcode.mulF, Opcode.move]

/-- The instruction `x`, or one before it whose operands may be taken over, has the operand `v`. -/
def ReadsBy (p : Program) (x : InstId) (v : Value) : Prop :=
  ∃ id ∈ p.order, (id = x ∨ p.Precedes id x ∧ (p.inst id).op ∈ passedOn) ∧ v ∈ (p.inst id).args

/-- The operands that a step can leave at `x`: those that were there or before it, references,
constants for such literals, and reciprocals of such float literals. -/
inductive Derived (p : Program) (x : InstId) : Value → Prop where
  | kept {v : Value} (h : p.ReadsBy x v) : Derived p x v
  | ref (r : InstId) : Derived p x (.ref r)
  | lifted {l : Literal} (h : p.ReadsBy x (.literal l)) : Derived p x (.name l.constantName)
  | inverted {k : UInt32} (h : p.ReadsBy x (.literal ⟨.float, k⟩)) :
      Derived p x (.literal (.ofFloatBits (Binary32.reciprocal k)))

/-- An instruction reads its own operands. -/
theorem readsBy_self {p : Program} {x : InstId} (hx : x ∈ p.order) {v : Value}
    (hv : v ∈ (p.inst x).args) : p.ReadsBy x v :=
  ⟨x, hx, .inl rfl, hv⟩

/-- After a replacement, an operand is an old one or the new one. -/
theorem derived_of_replace {p : Program} {x : InstId} (hx : x ∈ p.order) {old new v : Value}
    (hv : v ∈ ((p.inst x).replace old new).args)
    (hnew : old ∈ (p.inst x).args → p.Derived x new) : p.Derived x v := by
  rcases mem_args_replace hv with ⟨rfl, hold⟩ | ⟨hv, -⟩
  · exact hnew hold
  · exact .kept (readsBy_self hx hv)

/-- An operand after an algebraic rule is an old one or a reciprocal. -/
theorem derived_of_rule {p : Program} {id : InstId} (hid : id ∈ p.order) {rule : Rule}
    (hr : rule.IsIdentity) {i : Inst} {e : Event} (h : rule (p.inst id) = some (i, e)) {v : Value}
    (hv : v ∈ i.args) : p.Derived id v := by
  rcases hr with rfl | rfl | rfl
  · obtain ⟨x, -, hargs, rfl⟩ := unitProduct_eq_some h
    obtain rfl : v = x := by simpa using hv
    exact .kept (readsBy_self hid (by simp [hargs]))
  · obtain ⟨a, b, -, hargs, rfl⟩ := unitProductSum_eq_some h
    have hv' : v = a ∨ v = b := by simpa using hv
    exact .kept (readsBy_self hid (by rcases hv' with rfl | rfl <;> simp [hargs]))
  · obtain ⟨x, k, -, hargs, rfl⟩ := reciprocal_eq_some h
    have hv' : v = x ∨ v = .literal (.ofFloatBits (Binary32.reciprocal k)) := by simpa using hv
    rcases hv' with rfl | rfl
    · exact .kept (readsBy_self hid (by simp [hargs]))
    · exact .inverted (readsBy_self hid (by simp [hargs]))

/-- An operand after lifting is an old one or the constant of a literal. -/
theorem derived_liftOperand {p : Program} (chosen : List Literal) {x : InstId} {v : Value}
    (hv : p.ReadsBy x v) : p.Derived x (liftOperand chosen v) := by
  cases v with
  | literal l =>
      by_cases hl : chosen.contains l = true
      · rw [liftOperand, if_pos hl]
        exact .lifted hv
      · rw [liftOperand, if_neg hl]
        exact .kept hv
  | ref r => exact .ref r
  | name s => exact .kept hv

/-- Every operand after a step is derived from the operands before it. -/
theorem Rewrite.derived {p q : Program} (hr : Rewrite L p q) (h : p.Consistent) {x : InstId}
    (hx : x ∈ q.order) {v : Value} (hv : v ∈ (q.inst x).args) : p.Derived x v := by
  cases hr with
  | analyze =>
      rw [order_analyze] at hx
      rw [inst_analyze hx] at hv
      exact .kept (readsBy_self hx hv)
  | @fuse id user a b fused hid hu hc hf =>
      rw [order_fuse] at hx
      have hx' := List.mem_of_mem_erase hx
      rw [inst_fuse] at hv
      by_cases hxu : x = user
      · rw [if_pos hxu] at hv
        rcases mem_args_of_fuse? hf hv with hv | hv
        · obtain ⟨hop, hargs, -⟩ := candidate?_eq_some hc
          have hpre := (h.precedes_of_candidate hid hu hc).1
          have hpassed : (p.inst id).op ∈ passedOn := by simp [passedOn, hop]
          exact .kept ⟨id, hid, .inr ⟨hxu ▸ hpre, hpassed⟩, by rw [hargs]; exact hv⟩
        · exact .kept (readsBy_self hx' (hxu ▸ hv))
      · rw [if_neg hxu] at hv
        exact .kept (readsBy_self hx' hv)
  | @simplify id rule i e hr hid hi =>
      rw [inst_modify] at hv
      split at hv
      · rename_i hxid
        exact hxid ▸ derived_of_rule hid hr hi hv
      · exact .kept (readsBy_self (p := p) hx hv)
  | drop _ _ => exact .kept (readsBy_self (List.mem_of_mem_erase hx) hv)
  | @rename id user dst uses hid hu hs hm =>
      obtain ⟨-, hargs, rfl, rfl⟩ := moveFrom?_eq_some hm
      have hne : id ≠ user := (h.refs user hu id (by simp [hargs])).1.ne h.nodup
      obtain ⟨hxu, hxo⟩ := h.nodup.mem_erase_iff.mp hx
      by_cases hxid : x = id
      · subst hxid
        rw [inst_takeOver_self h hu hne hid] at hv
        exact derived_of_replace hxo hv fun _ => .ref _
      · rw [inst_takeOver_of_ne h hu hxu hxo hxid] at hv
        exact derived_of_replace hxo hv fun _ => .ref _
  | @forward id source uses hid hf =>
      obtain ⟨hop, -, hargs, rfl⟩ := forwardable?_eq_some hf
      have hxo : x ∈ p.order := List.mem_of_mem_erase (by simpa [bypass] using hx)
      have hpassed : (p.inst id).op ∈ passedOn := by simp [passedOn, hop]
      rw [inst_bypass h hid source hxo] at hv
      refine derived_of_replace hxo hv fun hold =>
        .kept ⟨id, hid, .inr ⟨?_, hpassed⟩, by simp [hargs]⟩
      exact (h.refs x hxo id hold).1
  | @merge first id hpre _ _ _ =>
      have hxo : x ∈ p.order := List.mem_of_mem_erase hx
      rw [inst_merge h first hpre.right_mem hxo] at hv
      exact derived_of_replace hxo hv fun _ => .ref _
  | @lift chosen _ id hid =>
      rw [liftOperands, inst_modify] at hv
      split at hv
      · rename_i hxid
        obtain ⟨w, hw, rfl⟩ := List.mem_map.mp hv
        exact hxid ▸ derived_liftOperand chosen (readsBy_self hid hw)
      · exact .kept (readsBy_self (p := p) hx hv)

/-! ## Each pass is a chain of steps -/

/-- If every visit is a chain of steps, then the whole sweep is. -/
theorem rewrites_sweep {visit : Program → InstId → Program}
    (hv : ∀ q id, q.Consistent → id ∈ q.order → Rewrites L q (visit q id)) {p : Program}
    (h : p.Consistent) : Rewrites L p (p.sweep visit) := by
  refine sweep_induction (Rewrites L p) (fun q id hq hid => ?_) .refl
  exact Relation.ReflTransGen.trans hq (hv q id (hq.consistent h) hid)

/-- A visit of fusion is a step, or does nothing. -/
theorem rewrites_fuseAt (p : Program) {id : InstId} (hid : id ∈ p.order) :
    Rewrites L p (p.fuseAt id) := by
  unfold fuseAt
  split
  · exact .refl
  · rename_i a b user hc
    split
    · rename_i hu
      split
      · exact .refl
      · rename_i fused hf
        exact .single (.fuse hid hu hc hf)
    · exact .refl

/-- A visit of an algebraic rule is a step, or does nothing. -/
theorem rewrites_applyRule {rule : Rule} (hr : rule.IsIdentity) (p : Program) {id : InstId}
    (hid : id ∈ p.order) : Rewrites L p (applyRule rule p id) := by
  cases h : rule (p.inst id) with
  | none =>
      rw [applyRule, modify_eq_self (by simp [h])]
      exact .refl
  | some ie =>
      have : applyRule rule p id = p.modify id fun _ => ie.1 := by
        simp [applyRule, Program.modify, h]
      rw [this]
      exact .single (.simplify hr hid h)

/-- A visit that removes dead code is a step, or does nothing. -/
theorem rewrites_removeDead (p : Program) {id : InstId} (hid : id ∈ p.order) :
    Rewrites L p (p.removeDead id) := by
  unfold removeDead
  split
  · rename_i hd
    exact .single (.drop hid hd)
  · exact .refl

/-- A visit that renames is a step, or does nothing. -/
theorem rewrites_renameMove (p : Program) {id : InstId} (hid : id ∈ p.order) :
    Rewrites L p (p.renameMove id) := by
  unfold renameMove
  split
  · exact .refl
  · rename_i user hs
    split
    · rename_i hu
      split
      · exact .refl
      · rename_i dst uses hm
        exact .single (.rename hid hu hs hm)
    · exact .refl

/-- A visit that forwards is a step, or does nothing. -/
theorem rewrites_forwardMove (p : Program) {id : InstId} (hid : id ∈ p.order) :
    Rewrites L p (p.forwardMove id) := by
  unfold forwardMove
  split
  · exact .refl
  · rename_i source uses hf
    exact .single (.forward hid hf)

/-- What the table of available computations knows during a walk with `rest` still ahead: an entry
that is live stands before everything ahead and still has the key it was entered with. -/
def Tracks (rest : List InstId) (t : Available) (q : Program) : Prop :=
  ∀ e ∈ t.computed, e.2 ∈ q.order →
    (q.inst e.2).key = e.1 ∧ ∀ x ∈ rest, x ∈ q.order → q.Precedes e.2 x

/-- The part of the order that is still ahead is in program order. -/
def Ahead (rest : List InstId) (q : Program) : Prop :=
  rest.Pairwise fun a b => a ∈ q.order → b ∈ q.order → q.Precedes a b

/-- The table stays right when it loses entries. -/
theorem Tracks.passBy {rest : List InstId} {t : Available} {q : Program} (h : Tracks rest t q)
    (i : Inst) : Tracks rest (t.passBy i) q := by
  unfold Available.passBy
  split
  · exact h
  · exact fun e he => h e (List.mem_filter.mp he).1

/-- The table is right for the rest of the walk. -/
theorem Tracks.tail {id : InstId} {rest : List InstId} {t : Available} {q : Program}
    (h : Tracks (id :: rest) t q) : Tracks rest t q := fun e he hq =>
  ⟨(h e he hq).1, fun x hx => (h e he hq).2 x (List.mem_cons_of_mem _ hx)⟩

/-- The table stays right when the visited instruction is entered. -/
theorem Tracks.insert {id : InstId} {rest : List InstId} {t : Available} {q : Program}
    (h : Tracks (id :: rest) t q) (ha : Ahead (id :: rest) q) (hid : id ∈ q.order) :
    Tracks rest (t.insert (q.inst id).key id) q := by
  intro e he hq
  rcases List.mem_cons.mp he with rfl | he
  · exact ⟨rfl, fun x hx hxq => (List.pairwise_cons.mp ha).1 x hx hid hxq⟩
  · exact h.tail e he hq

/-- An instruction that does not read the operand keeps its key. -/
theorem key_replace_of_not_mem {i : Inst} {old new : Value} (h : old ∉ i.args)
    (uses : List InstId) :
    Inst.key { i.replace old new with uses } = i.key := by
  rw [replace_of_not_mem new h]
  rfl

/-- Merging the instruction at hand changes no key that the table knows, since what stands before it
does not refer to it. -/
theorem Tracks.merge {id first : InstId} {rest : List InstId} {t : Available} {q : Program}
    (h : Tracks (id :: rest) t q) (hq : q.Consistent) (hid : id ∈ q.order) :
    Tracks rest t (q.merge first id) := by
  intro e he hlive
  obtain ⟨hne, hlive'⟩ := hq.nodup.mem_erase_iff.mp hlive
  obtain ⟨hkey, hahead⟩ := h e he hlive'
  have hpre : q.Precedes e.2 id := hahead id (by simp) hid
  have hnot : .ref id ∉ (q.inst e.2).args := fun hr =>
    hpre.asymm hq.nodup (hq.refs e.2 hlive' id hr).1
  constructor
  · rw [inst_merge hq first hid hlive', key_replace_of_not_mem hnot]
    exact hkey
  · intro x hx hxlive
    obtain ⟨hxne, hx'⟩ := hq.nodup.mem_erase_iff.mp hxlive
    exact (precedes_remove hq.nodup).mpr ⟨hahead x (List.mem_cons_of_mem _ hx) hx', hne, hxne⟩

/-- What is ahead stays ahead when a repeated computation is merged. -/
theorem Ahead.merge {id first : InstId} {rest : List InstId} {q : Program} (h : Ahead rest q)
    (hn : q.order.Nodup) : Ahead rest (q.merge first id) := by
  refine List.Pairwise.imp (fun hab ha hb => ?_) h
  obtain ⟨hane, ha'⟩ := hn.mem_erase_iff.mp ha
  obtain ⟨hbne, hb'⟩ := hn.mem_erase_iff.mp hb
  exact (precedes_remove hn).mpr ⟨hab ha' hb', hane, hbne⟩

/-- What the search for repeated computations keeps at every visit holds at its end. It skips what
is gone, enters a computation that the table has no live entry for, passes by one that it has an
entry for, and merges it with the entry if both are temporaries. -/
theorem duplicates_induction (Inv : List InstId → Available → Program → Prop)
    (hskip : ∀ id rest t q, Inv (id :: rest) t q → id ∉ q.order → Inv rest t q)
    (hinsert : ∀ id rest t q, Inv (id :: rest) t q → id ∈ q.order →
      (∀ first, (t.passBy (q.inst id)).find? (q.inst id).key = some first → first ∉ q.order) →
      Inv rest ((t.passBy (q.inst id)).insert (q.inst id).key id) q)
    (hpass : ∀ id first rest t q, Inv (id :: rest) t q → id ∈ q.order →
      (t.passBy (q.inst id)).find? (q.inst id).key = some first → first ∈ q.order →
      ¬ ((q.inst id).isTemp = true ∧ (q.inst first).isTemp = true) →
      Inv rest (t.passBy (q.inst id)) q)
    (hmerge : ∀ id first rest t q, Inv (id :: rest) t q → id ∈ q.order →
      (t.passBy (q.inst id)).find? (q.inst id).key = some first → first ∈ q.order →
      (q.inst id).isTemp = true → (q.inst first).isTemp = true →
      Inv rest (t.passBy (q.inst id)) (q.merge first id))
    {p : Program} (h : Inv p.order {} p) : ∃ t, Inv [] t p.duplicates := by
  refine ⟨_, foldLive_induction_ahead Inv hskip (fun id rest t q hq hid => ?_) p.order h⟩
  cases hfind : (t.passBy (q.inst id)).find? (q.inst id).key with
  | none =>
      rw [mergeDuplicate_of_none hfind]
      exact hinsert id rest t q hq hid fun first hfirst => by simp [hfind] at hfirst
  | some first =>
      by_cases hlive : first ∈ q.order
      · rw [mergeDuplicate_of_live hfind hlive]
        by_cases htemps : (q.inst id).isTemp = true ∧ (q.inst first).isTemp = true
        · rw [if_pos htemps]
          exact hmerge id first rest t q hq hid hfind hlive htemps.1 htemps.2
        · rw [if_neg htemps]
          exact hpass id first rest t q hq hid hfind hlive htemps
      · rw [mergeDuplicate_of_gone hfind hlive]
        refine hinsert id rest t q hq hid fun found hfound => ?_
        obtain rfl := Option.some.inj (hfind.symm.trans hfound)
        exact hlive

/-- The search for repeated computations: the table it carries always leads to an earlier
instruction with the same key. -/
theorem rewrites_duplicates {p : Program} (h : p.Consistent) : Rewrites L p p.duplicates := by
  have hstart : Ahead p.order p :=
    List.pairwise_iff_forall_sublist.mpr fun hab _ _ => hab
  have hend : ∃ t, Rewrites L p p.duplicates ∧ Tracks [] t p.duplicates ∧
      Ahead [] p.duplicates := by
    refine duplicates_induction (fun rest t q => Rewrites L p q ∧ Tracks rest t q ∧ Ahead rest q)
      ?_ ?_ ?_ ?_ ⟨.refl, by simp [Tracks], hstart⟩
    · rintro id rest t q ⟨hq, ht, ha⟩ _
      exact ⟨hq, ht.tail, (List.pairwise_cons.mp ha).2⟩
    · rintro id rest t q ⟨hq, ht, ha⟩ hid -
      exact ⟨hq, (ht.passBy _).insert ha hid, (List.pairwise_cons.mp ha).2⟩
    · rintro id first rest t q ⟨hq, ht, ha⟩ _ - - -
      exact ⟨hq, (ht.passBy _).tail, (List.pairwise_cons.mp ha).2⟩
    · rintro id first rest t q ⟨hq, ht, ha⟩ hid hfind hlive htid htf
      have hc : q.Consistent := hq.consistent h
      have ht' := ht.passBy (q.inst id)
      obtain ⟨hkey, hahead⟩ := ht' _ (mem_of_lookup_eq_some hfind) hlive
      have hstep : Rewrite L q (q.merge first id) := .merge (hahead id (by simp) hid) hkey htf htid
      have ha' : Ahead rest q := (List.pairwise_cons.mp ha).2
      exact ⟨hq.tail hstep, ht'.merge hc hid, ha'.merge hc.nodup⟩
  obtain ⟨_, hrewrites, -⟩ := hend
  exact hrewrites

/-- What is in the collection was there or has been added. -/
theorem mem_addNew {α : Type} [BEq α] {xs ys : List α} {y : α} (h : y ∈ addNew xs ys) :
    y ∈ xs ∨ y ∈ ys := by
  unfold addNew at h
  induction ys generalizing xs with
  | nil => exact .inl h
  | cons z ys ih =>
      rw [List.foldl_cons] at h
      rcases ih h with hz | hy
      · split at hz
        · exact .inl hz
        · rcases List.mem_append.mp hz with hz | hz
          · exact .inl hz
          · exact .inr (List.mem_cons.mpr (.inl (List.mem_singleton.mp hz)))
      · exact .inr (List.mem_cons_of_mem _ hy)

/-- The literals that lifting looks at take instructions to build. -/
theorem costly_of_mem_costlyLiterals {p : Program} {l : Literal} (h : l ∈ p.costlyLiterals) :
    l.Costly := by
  have key : ∀ (ids : List InstId) (found : List Literal), (∀ m ∈ found, m.Costly) →
      ∀ m ∈ ids.foldl (fun found id =>
        addNew found ((literalsOf (p.inst id).args).filter (·.cost ≠ 0))) found, m.Costly := by
    intro ids
    induction ids with
    | nil => exact fun _ h => h
    | cons id ids ih =>
        intro found hfound
        refine ih _ fun m hm => ?_
        rcases mem_addNew hm with hm | hm
        · exact hfound m hm
        · simpa [Literal.Costly] using (List.mem_filter.mp hm).2
  exact key p.order [] (by simp) l h

/-- Only literals that take instructions to build are lifted. -/
theorem costly_of_mem_chooseLiterals {p : Program} {slots : Int} {l : Literal}
    (h : l ∈ p.chooseLiterals slots) : l.Costly := by
  obtain ⟨e, he, rfl⟩ := exists_of_mem_drain h
  obtain ⟨i, hi, rfl⟩ := List.mem_mapIdx.mp he
  exact costly_of_mem_costlyLiterals (List.getElem_mem hi)

/-- Whatever a pass lifts in the program is in `L`. -/
def LiftsIn (p : Program) (L : Literal → Prop) (pass : Pass) : Prop :=
  ∀ slots, pass = .lift slots → ∀ l ∈ p.chooseLiterals slots, L l

/-- Whatever is lifted takes instructions to build. -/
theorem liftsIn_costly (p : Program) (pass : Pass) : p.LiftsIn Literal.Costly pass :=
  fun _ _ _ hl => costly_of_mem_chooseLiterals hl

/-- Lifting is a chain of steps that lift what it has chosen. -/
theorem rewrites_lift (slots : Int) {p : Program} (h : p.Consistent)
    (hl : ∀ l ∈ p.chooseLiterals slots, L l) : Rewrites L p (p.lift slots) := by
  unfold lift
  split
  · exact .refl
  · exact rewrites_sweep (fun q id _ hid => .single (.lift hl hid)) h

/-- Every pass is a chain of steps, which lift the literals that the pass chooses. -/
theorem rewrites_apply_of_liftsIn (pass : Pass) {p : Program} (h : p.Consistent)
    (hl : p.LiftsIn L pass) : Rewrites L p (p.apply pass) := by
  cases pass with
  | analysis => exact .single (.analyze p)
  | fusion => exact rewrites_sweep (fun q id _ hid => q.rewrites_fuseAt hid) h
  | algebra =>
      have h₁ := rewrites_sweep (L := L) (fun q id _ hid => q.rewrites_applyRule (.inl rfl) hid) h
      have h₂ := rewrites_sweep (L := L)
        (fun q id _ hid => q.rewrites_applyRule (.inr (.inl rfl)) hid) (h₁.consistent h)
      have h₃ := rewrites_sweep (L := L)
        (fun q id _ hid => q.rewrites_applyRule (.inr (.inr rfl)) hid)
        (h₂.consistent (h₁.consistent h))
      exact (Relation.ReflTransGen.trans h₁ h₂).trans h₃
  | deadCode => exact rewrites_sweep (fun q id _ hid => q.rewrites_removeDead hid) h
  | moves =>
      have h₁ := rewrites_sweep (L := L) (fun q id _ hid => q.rewrites_renameMove hid) h
      have h₂ := rewrites_sweep (L := L) (fun q id _ hid => q.rewrites_forwardMove hid)
        (h₁.consistent h)
      exact Relation.ReflTransGen.trans h₁ h₂
  | duplicates => exact rewrites_duplicates h
  | lift slots => exact rewrites_lift slots h (hl slots rfl)

/-- Every pass is a chain of steps that lift costly literals only. -/
theorem rewrites_apply (pass : Pass) {p : Program} (h : p.Consistent) :
    Rewrites Literal.Costly p (p.apply pass) :=
  rewrites_apply_of_liftsIn pass h (p.liftsIn_costly pass)

end Program

end Straightline
