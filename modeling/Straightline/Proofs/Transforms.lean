import Mathlib.Logic.Function.Iterate
import Straightline.Pass
import Straightline.Proofs.Computes

/-!
# The passes as functions on programs

Each pass is restated as a plain function on programs: what one visit does to the program, and the
walk over the order that repeats it. `Program.apply` collects them, and `computes_apply` is the one
statement that the rest of the theory rests on: a pass, run on a store that holds a program whose
operands and use-sets mention only identities that exist (`Program.Closed`), succeeds and leaves the
program that the function gives.
-/

set_option autoImplicit false

namespace Straightline

@[simp] theorem mem_refsOf {args : List Value} {r : InstId} :
    r ∈ refsOf args ↔ Value.ref r ∈ args := by
  simp only [refsOf, List.mem_filterMap]
  constructor
  · rintro ⟨v, hv, h⟩
    cases v <;> simp at h
    exact h ▸ hv
  · intro h
    exact ⟨_, h, rfl⟩

@[simp] theorem mem_namesOf {args : List Value} {n : String} :
    n ∈ namesOf args ↔ Value.name n ∈ args := by
  simp only [namesOf, List.mem_filterMap]
  constructor
  · rintro ⟨v, hv, h⟩
    cases v <;> simp at h
    exact h ▸ hv
  · intro h
    exact ⟨_, h, rfl⟩

namespace Program

/-! ## Identities that exist -/

/-- Nothing in the live program mentions an identity that was never given out. -/
structure Closed (p : Program) : Prop where
  nodup : p.order.Nodup
  known : ∀ id ∈ p.order, p.Known id
  args : ∀ id ∈ p.order, ∀ r, .ref r ∈ (p.inst id).args → p.Known r
  uses : ∀ id ∈ p.order, ∀ u ∈ (p.inst id).uses, p.Known u

/-- Changing an instruction keeps a program closed if what comes in is known. -/
theorem Closed.modify {p : Program} {id : InstId} {f : Inst → Inst} (h : p.Closed)
    (ha : id ∈ p.order → ∀ r, .ref r ∈ (f (p.inst id)).args → p.Known r)
    (hu : id ∈ p.order → ∀ u ∈ (f (p.inst id)).uses, p.Known u) : (p.modify id f).Closed where
  nodup := h.nodup
  known := h.known
  args := by
    intro other ho r hr
    rw [inst_modify] at hr
    split at hr
    case isTrue e => exact ha (e ▸ ho) r hr
    case isFalse => exact h.args other ho r hr
  uses := by
    intro other ho u hu'
    rw [inst_modify] at hu'
    split at hu'
    case isTrue e => exact hu (e ▸ ho) u hu'
    case isFalse => exact h.uses other ho u hu'

/-- A program stays closed when an instruction is removed. -/
theorem Closed.remove {p : Program} {id : InstId} (h : p.Closed) : (p.remove id).Closed where
  nodup := h.nodup.erase id
  known other ho := h.known other (List.mem_of_mem_erase ho)
  args other ho := h.args other (List.mem_of_mem_erase ho)
  uses other ho := h.uses other (List.mem_of_mem_erase ho)

/-- A change that an instruction does not need leaves the program as it is. -/
theorem modify_eq_self {p : Program} {id : InstId} {f : Inst → Inst}
    (h : f (p.inst id) = p.inst id) : p.modify id f = p := by
  simp [Program.modify, h]

/-! ## Walks without a result -/

/-- Visits every instruction in program order. -/
def sweep (visit : Program → InstId → Program) (p : Program) : Program :=
  (foldLive (fun _ q id => ((), visit q id)) p.order ((), p)).2

/-- What one visit keeps, a sweep keeps. -/
theorem sweep_induction {visit : Program → InstId → Program} (Inv : Program → Prop)
    (hstep : ∀ q id, Inv q → id ∈ q.order → Inv (visit q id)) {p : Program} (h : Inv p) :
    Inv (p.sweep visit) :=
  foldLive_induction (fun _ q => Inv q) (fun _ q id => hstep q id) p.order h

/-- A sweep of visits that all do nothing. -/
theorem sweep_of_fixed {visit : Program → InstId → Program} {p : Program}
    (h : ∀ id ∈ p.order, visit p id = p) : p.sweep visit = p := by
  refine sweep_induction (fun q => q = p) (fun q id hq hid => ?_) rfl
  subst hq
  exact h id hid

end Program

/-- A walk computes what its visits compute one after the other. -/
theorem computes_forEach {visit : InstId → Action Unit} {step : Program → InstId → Program}
    (Inv : Program → Prop)
    (hstep : ∀ q id, Inv q → q.order.Nodup → id ∈ q.order →
      Computes (visit id) q () (step q id) ∧ Inv (step q id) ∧ q.Survives id (step q id))
    {p : Program} (hp : Inv p) : Computes (forEach visit) p () (p.sweep step) :=
  computes_foldEach (fun _ q id => ((), step q id)) (fun _ q => Inv q) (fun _ q id => hstep q id) hp

/-! ## Use-sets -/

namespace Program

/-- Empties a use-set. -/
def clearUses (p : Program) (id : InstId) : Program := p.modify id fun i => { i with uses := [] }

/-- Changes the use-sets of all producers in a list. -/
def modifyUses (p : Program) (producers : List InstId) (f : List InstId → List InstId) : Program :=
  producers.foldl (fun q r => q.modify r fun i => { i with uses := f i.uses }) p

/-- Records an instruction as a consumer of everything it refers to. -/
def recordUses (p : Program) (id : InstId) : Program :=
  p.modifyUses (refsOf (p.inst id).args) fun uses => uses ++ [id]

/-- Recomputes every use-set. -/
def analyze (p : Program) : Program := (p.sweep clearUses).sweep recordUses

/-- Puts `v` in place of the references to `old` in the live ones of the `users`. -/
def redirect (p : Program) (users : List InstId) (old : InstId) (v : Value) : Program :=
  { p with
    inst := fun u =>
      if u ∈ users ∧ u ∈ p.order then (p.inst u).replace (.ref old) v else p.inst u }

/-- The users that a redirection finds, once per operand; `seen` are dealt with already. -/
def redirectedFrom (p : Program) (old : InstId) (seen : List InstId) :
    List InstId → List InstId
  | [] => []
  | u :: rest =>
    if u ∈ seen then p.redirectedFrom old seen rest
    else if u ∈ p.order then
      List.replicate ((p.inst u).occurrences (.ref old)) u ++ p.redirectedFrom old (u :: seen) rest
    else p.redirectedFrom old seen rest

/-- The users that a redirection finds, once per operand. -/
def redirected (p : Program) (users : List InstId) (old : InstId) : List InstId :=
  p.redirectedFrom old [] users

variable (p : Program) (users : List InstId) (old : InstId) (v : Value)

@[simp] theorem order_redirect : (p.redirect users old v).order = p.order := rfl

@[simp] theorem size_redirect : (p.redirect users old v).size = p.size := rfl

theorem inst_redirect (u : InstId) : (p.redirect users old v).inst u =
    if u ∈ users ∧ u ∈ p.order then (p.inst u).replace (.ref old) v else p.inst u := rfl

@[simp] theorem order_modifyUses (l : List InstId) (f : List InstId → List InstId) :
    (p.modifyUses l f).order = p.order := by
  induction l generalizing p with
  | nil => rfl
  | cons r l ih => exact ih _

@[simp] theorem size_modifyUses (l : List InstId) (f : List InstId → List InstId) :
    (p.modifyUses l f).size = p.size := by
  induction l generalizing p with
  | nil => rfl
  | cons r l ih => exact ih _

/-- Only use-sets change, each once per mention in the list. -/
theorem inst_modifyUses (l : List InstId) (f : List InstId → List InstId) (id : InstId) :
    (p.modifyUses l f).inst id =
      { p.inst id with uses := f^[l.count id] (p.inst id).uses } := by
  induction l generalizing p with
  | nil => rfl
  | cons r l ih =>
      rw [modifyUses, List.foldl_cons]
      refine (ih _).trans ?_
      by_cases h : id = r
      · subst h
        simp [Function.iterate_succ_apply]
      · rw [inst_modify_of_ne _ h, List.count_cons_of_ne (fun e => h e.symm)]

/-- A redirection depends only on which live instructions are among the users. -/
theorem redirect_congr {p : Program} {users users' : List InstId} (old : InstId) (v : Value)
    (h : ∀ u ∈ p.order, u ∈ users ↔ u ∈ users') :
    p.redirect users old v = p.redirect users' old v := by
  unfold redirect
  congr 1
  funext u
  by_cases hu : u ∈ p.order
  · simp [h u hu, hu]
  · simp [hu]

theorem redirect_nil : p.redirect [] old v = p := by
  simp [redirect]

/-- Redirecting one more user. -/
theorem modify_redirect {p : Program} {seen : List InstId} {u : InstId} (hu : u ∈ p.order)
    (hs : u ∉ seen) : (p.redirect seen old v).modify u (·.replace (.ref old) v) =
      p.redirect (u :: seen) old v := by
  unfold redirect Program.modify
  congr 1
  funext x
  by_cases hx : x = u
  · subst hx
    simp [hs, hu]
  · simp [hx]

end Program

/-- The use-sets of several producers are changed one after the other. -/
theorem computes_modifyUses {p : Program} {producers : List InstId}
    (f : List InstId → List InstId) (hk : ∀ r ∈ producers, p.Known r) :
    Computes (producers.forM fun r => edit r fun i => { i with uses := f i.uses }) p ()
      (p.modifyUses producers f) := by
  refine (computes_forM (fun q => q.size = p.size) producers ?_ rfl).1
  intro q r hr hq
  have : q.Known r := by
    have := hk r hr
    simpa [Program.Known, hq] using this
  exact ⟨computes_edit this _, hq⟩

/-- Redirecting users one after the other redirects them all. -/
theorem computes_redirectFrom {p : Program} (old : InstId) (v : Value) (seen users : List InstId)
    (hk : ∀ u ∈ users, p.Known u) :
    Computes (redirectFrom old v seen users) (p.redirect seen old v)
      (p.redirectedFrom old seen users) (p.redirect (seen ++ users) old v) := by
  induction users generalizing seen with
  | nil => simpa [redirectFrom, Program.redirectedFrom] using computes_pure _
  | cons u users ih =>
      have hrest : ∀ x ∈ users, p.Known x := fun x hx => hk x (by simp [hx])
      rw [redirectFrom, Program.redirectedFrom]
      by_cases hs : u ∈ seen
      · have hsame : p.redirect (seen ++ u :: users) old v = p.redirect (seen ++ users) old v :=
          Program.redirect_congr old v (by simp; grind)
        simpa [hs, hsame] using ih seen hrest
      · simp only [List.contains_iff_mem, hs, if_false]
        refine (computes_isLive (p := p.redirect seen old v) (hk u (by simp))).bind ?_
        by_cases hu : u ∈ p.order
        · -- a live user is redirected now
          have hsame : p.redirect (seen ++ u :: users) old v =
              p.redirect ((u :: seen) ++ users) old v :=
            Program.redirect_congr old v (by simp; grind)
          have hedit := computes_editGet (p := p.redirect seen old v) (hk u (by simp)) fun i =>
            (i.occurrences (.ref old), i.replace (.ref old) v)
          have hinst : (p.redirect seen old v).inst u = p.inst u := by
            simp [Program.inst_redirect, hs]
          rw [hinst, Program.modify_redirect old v hu hs] at hedit
          simp only [Program.order_redirect, hu, decide_true, if_true, hsame]
          exact hedit.bind ((ih (u :: seen) hrest).bind (computes_pure _))
        · have hsame : p.redirect (seen ++ u :: users) old v = p.redirect (seen ++ users) old v :=
            Program.redirect_congr old v (by simp; grind)
          simp only [Program.order_redirect, hu, decide_false, Bool.false_eq_true, if_false, hsame]
          exact ih seen hrest

/-- Redirecting the users of an instruction. -/
theorem computes_redirect {p : Program} {users : List InstId} (old : InstId) (v : Value)
    (hk : ∀ u ∈ users, p.Known u) :
    Computes (redirect users old v) p (p.redirected users old) (p.redirect users old v) := by
  have h := computes_redirectFrom old v [] users hk
  rw [Program.redirect_nil] at h
  exact h

namespace Program

/-- How often a redirection finds each user. -/
theorem count_redirectedFrom (p : Program) (old : InstId) (seen users : List InstId) (x : InstId) :
    (p.redirectedFrom old seen users).count x =
      if x ∈ users ∧ x ∉ seen ∧ x ∈ p.order then (p.inst x).occurrences (.ref old) else 0 := by
  induction users generalizing seen with
  | nil => simp [redirectedFrom]
  | cons u users ih =>
      rw [redirectedFrom]
      by_cases hs : u ∈ seen
      · rw [if_pos hs, ih]
        grind
      · rw [if_neg hs]
        by_cases hu : u ∈ p.order
        · rw [if_pos hu, List.count_append, ih, List.count_replicate]
          grind
        · rw [if_neg hu, ih]
          grind

/-- A user is found once for each operand that is redirected. -/
theorem count_redirected (p : Program) (users : List InstId) (old x : InstId) :
    (p.redirected users old).count x =
      if x ∈ users ∧ x ∈ p.order then (p.inst x).args.count (.ref old) else 0 := by
  simp [redirected, count_redirectedFrom, Inst.occurrences]

/-- The users that are found are live. -/
theorem mem_of_mem_redirected {p : Program} {users : List InstId} {old x : InstId}
    (h : x ∈ p.redirected users old) : x ∈ users ∧ x ∈ p.order := by
  have hpos := List.count_pos_iff.mpr h
  rw [count_redirected] at hpos
  by_contra hx
  rw [if_neg hx] at hpos
  exact absurd hpos (Nat.lt_irrefl 0)

/-- An operand after a replacement is the new one or another than the old one. -/
theorem mem_args_replace {i : Inst} {old new v : Value} (h : v ∈ (i.replace old new).args) :
    v = new ∧ old ∈ i.args ∨ v ∈ i.args ∧ v ≠ old := by
  obtain ⟨a, ha, rfl⟩ := List.mem_map.mp h
  by_cases hold : a = old
  · exact .inl ⟨by simp [hold], hold ▸ ha⟩
  · exact .inr ⟨by simpa [hold] using ha, by simp [hold]⟩

/-- A program stays closed when users read something that exists. -/
theorem Closed.redirect {p : Program} {users : List InstId} {old : InstId} {v : Value}
    (h : p.Closed) (hv : ∀ r, v = .ref r → p.Known r) : (p.redirect users old v).Closed where
  nodup := h.nodup
  known := h.known
  args := by
    intro id hid r hr
    rw [inst_redirect] at hr
    split at hr
    · rcases mem_args_replace hr with ⟨e, -⟩ | ⟨hr, -⟩
      · exact hv r e.symm
      · exact h.args id hid r hr
    · exact h.args id hid r hr
  uses := by
    intro id hid u hu
    rw [inst_redirect] at hu
    refine h.uses id hid u ?_
    split at hu <;> exact hu

/-- A program stays closed when use-sets hold what exists. -/
theorem Closed.modifyUses {p : Program} {producers : List InstId} {f : List InstId → List InstId}
    (h : p.Closed) (hf : ∀ l, (∀ u ∈ l, p.Known u) → ∀ u ∈ f l, p.Known u) :
    (p.modifyUses producers f).Closed where
  nodup := by simpa using h.nodup
  known := by simpa [Known] using h.known
  args := by
    intro id hid r hr
    rw [inst_modifyUses] at hr
    simpa [Known] using h.args id (by simpa using hid) r hr
  uses := by
    intro id hid u hu
    rw [inst_modifyUses] at hu
    have hall : ∀ n, ∀ u ∈ f^[n] (p.inst id).uses, p.Known u := by
      intro n
      induction n with
      | zero => exact h.uses id (by simpa using hid)
      | succ n ih =>
          rw [Function.iterate_succ_apply']
          exact hf _ ih
    simpa [Known] using hall _ u hu

/-! ## The visits -/

/-- Merges the product `id = a * b` into its consumer, which becomes `fused`. -/
def fuse (p : Program) (id user : InstId) (a b : Value) (fused : Inst) : Program :=
  ((p.modify user fun _ => fused).modifyUses (refsOf [a, b])
    fun uses => replaceUses uses id [user]).remove id

/-- Merges a product into its only consumer, where that can be done. -/
def fuseAt (p : Program) (id : InstId) : Program :=
  match Fusion.candidate? (p.inst id) with
  | none => p
  | some (a, b, user) =>
    if user ∈ p.order then
      match Fusion.fuse? id a b (p.inst user) with
      | none => p
      | some fused => p.fuse id user a b fused
    else p

/-- Applies a rule to one instruction. -/
def applyRule (rule : Rule) (p : Program) (id : InstId) : Program :=
  p.modify id fun i => ((rule i).map (·.1)).getD i

/-- Removes one instruction if it is dead. -/
def removeDead (p : Program) (id : InstId) : Program :=
  if (p.inst id).isDead then p.remove id else p

/-- The producer `id` takes over the destination and the consumers of the move `user`. -/
def takeOver (p : Program) (id user : InstId) (dst : String) (uses : List InstId) : Program :=
  ((p.remove user).redirect uses user (.ref id)).modify id
    fun i => { i with dst, uses := (p.remove user).redirected uses user }

/-- A producer takes over the move that is its only consumer. -/
def renameMove (p : Program) (id : InstId) : Program :=
  match (p.inst id).soleUser? with
  | none => p
  | some user =>
    if user ∈ p.order then
      match (p.inst user).moveFrom? id with
      | none => p
      | some (dst, uses) => p.takeOver id user dst uses
    else p

/-- The consumers of the move `id` read its source, and the move is gone. -/
def bypass (p : Program) (id : InstId) (source : Value) (uses : List InstId) : Program :=
  ((p.redirect uses id source).modifyUses (refsOf [source])
    fun old => replaceUses old id (p.redirected uses id)).remove id

/-- A move into a temporary is bypassed. -/
def forwardMove (p : Program) (id : InstId) : Program :=
  match (p.inst id).forwardable? with
  | none => p
  | some (source, uses) => p.bypass id source uses

/-- The consumers of `id` read `first` instead, and `id` is gone. -/
def merge (p : Program) (first id : InstId) : Program :=
  ((p.redirect (p.inst id).uses id (.ref first)).modify first
    fun f => { f with uses := f.uses ++ p.redirected (p.inst id).uses id }).remove id

/-- Visits one instruction with the table of what is available before it. -/
def mergeDuplicate (t : Available) (p : Program) (id : InstId) : Available × Program :=
  let i := p.inst id
  let t := t.passBy i
  match t.find? i.key with
  | none => (t.insert i.key id, p)
  | some first =>
    if first ∈ p.order then
      (t, if i.isTemp ∧ (p.inst first).isTemp then p.merge first id else p)
    else (t.insert i.key id, p)

section

variable {t : Available} {p : Program} {id first : InstId}

/-- A computation that is new is entered. -/
theorem mergeDuplicate_of_none (h : (t.passBy (p.inst id)).find? (p.inst id).key = none) :
    p.mergeDuplicate t id = ((t.passBy (p.inst id)).insert (p.inst id).key id, p) := by
  simp [mergeDuplicate, h]

/-- A computation whose first occurrence is gone is entered in its place. -/
theorem mergeDuplicate_of_gone (h : (t.passBy (p.inst id)).find? (p.inst id).key = some first)
    (hf : first ∉ p.order) :
    p.mergeDuplicate t id = ((t.passBy (p.inst id)).insert (p.inst id).key id, p) := by
  simp [mergeDuplicate, h, hf]

/-- A computation that is available is merged if both are temporaries. -/
theorem mergeDuplicate_of_live (h : (t.passBy (p.inst id)).find? (p.inst id).key = some first)
    (hf : first ∈ p.order) :
    p.mergeDuplicate t id = (t.passBy (p.inst id),
      if (p.inst id).isTemp ∧ (p.inst first).isTemp then p.merge first id else p) := by
  simp [mergeDuplicate, h, hf]

end

/-- Puts constants in place of the chosen literals of one instruction. -/
def liftOperands (chosen : List Literal) (p : Program) (id : InstId) : Program :=
  p.modify id fun i => { i with args := i.args.map (liftOperand chosen) }

end Program

/-! ## When a rule fires

Each rule of a pass fires on one shape of instruction. -/

/-- A product with one becomes a move. -/
theorem unitProduct_eq_some {i i' : Inst} {e : Event} (h : Rule.unitProduct i = some (i', e)) :
    ∃ x, i.op = Opcode.mulF ∧ i.args = [.one, x] ∧
      i' = { i with op := Opcode.move, args := [x] } := by
  unfold Rule.unitProduct at h
  split at h
  · rename_i one x hargs
    split at h
    · rename_i hc
      obtain ⟨hop, rfl⟩ := hc
      rw [Option.some.injEq, Prod.mk.injEq] at h
      exact ⟨x, hop, hargs, h.1.symm⟩
    · exact absurd h (by simp)
  · exact absurd h (by simp)

/-- A sum of such a product becomes a sum. -/
theorem unitProductSum_eq_some {i i' : Inst} {e : Event}
    (h : Rule.unitProductSum i = some (i', e)) :
    ∃ a b, i.op = Opcode.mulAddF ∧ i.args = [a, .one, b] ∧
      i' = { i with op := Opcode.addF, args := [a, b] } := by
  unfold Rule.unitProductSum at h
  split at h
  · rename_i a one b hargs
    split at h
    · rename_i hc
      obtain ⟨hop, rfl⟩ := hc
      rw [Option.some.injEq, Prod.mk.injEq] at h
      exact ⟨a, b, hop, hargs, h.1.symm⟩
    · exact absurd h (by simp)
  · exact absurd h (by simp)

/-- A division by a literal becomes a product with its reciprocal. -/
theorem reciprocal_eq_some {i i' : Inst} {e : Event} (h : Rule.reciprocal i = some (i', e)) :
    ∃ x k, i.op = Opcode.divF ∧ i.args = [x, .literal ⟨.float, k⟩] ∧
      i' = { i with
        op := Opcode.mulF
        args := [x, .literal (.ofFloatBits (Binary32.reciprocal k))] } := by
  unfold Rule.reciprocal at h
  split at h
  · rename_i x k hargs
    split at h
    · rename_i hop
      rw [Option.some.injEq, Prod.mk.injEq] at h
      exact ⟨x, k, hop, hargs, h.1.symm⟩
    · exact absurd h (by simp)
  · exact absurd h (by simp)

/-- A candidate is a product of two operands with a single consumer. -/
theorem candidate?_eq_some {i : Inst} {a b : Value} {user : InstId}
    (h : Fusion.candidate? i = some (a, b, user)) :
    i.op = Opcode.mulF ∧ i.args = [a, b] ∧ i.uses = [user] := by
  unfold Fusion.candidate? at h
  split at h
  · rename_i a' b' user' hargs huses
    split at h
    · rename_i hop
      simp only [Option.some.injEq, Prod.mk.injEq] at h
      obtain ⟨rfl, rfl, rfl⟩ := h
      exact ⟨hop, hargs, huses⟩
    · exact absurd h (by simp)
  · exact absurd h (by simp)

/-- A consumer that adds the product, or subtracts from it, becomes a merged product. -/
theorem fuse?_eq_some {mul : InstId} {a b : Value} {user fused : Inst}
    (h : Fusion.fuse? mul a b user = some fused) :
    ∃ y, (user.op = Opcode.addF ∧ (user.args = [.ref mul, y] ∨ user.args = [y, .ref mul]) ∧
        fused = { user with op := Opcode.mulAddF, args := [a, b, y] }) ∨
      (user.op = Opcode.subF ∧ user.args = [.ref mul, y] ∧
        fused = { user with op := Opcode.mulSubF, args := [a, b, y] }) := by
  unfold Fusion.fuse? at h
  split at h
  · rename_i op x y hop hargs
    unfold Fusion.fusedOp? at hop
    split at h
    · rename_i hx
      subst hx
      rw [Option.some.injEq] at h
      split at hop
      · rename_i hadd
        rw [Option.some.injEq] at hop
        exact ⟨y, .inl ⟨hadd, .inl hargs, by rw [← h, hop]⟩⟩
      · split at hop
        · rename_i hsub
          rw [Option.some.injEq] at hop
          exact ⟨y, .inr ⟨hsub, hargs, by rw [← h, hop]⟩⟩
        · exact absurd hop (by simp)
    · split at h
      · rename_i hy
        obtain ⟨rfl, hadd⟩ := hy
        rw [Option.some.injEq] at h
        rw [if_pos hadd, Option.some.injEq] at hop
        exact ⟨x, .inl ⟨hadd, .inr hargs, by rw [← h, hop]⟩⟩
      · exact absurd h (by simp)
  · exact absurd h (by simp)

/-- A sole user is the only entry in the use-set of a temporary. -/
theorem soleUser?_eq_some {i : Inst} {user : InstId} (h : i.soleUser? = some user) :
    i.uses = [user] ∧ i.isTemp = true := by
  unfold Inst.soleUser? at h
  split at h
  · rename_i u huses
    split at h
    · rename_i ht
      rw [Option.some.injEq] at h
      exact ⟨h ▸ huses, ht⟩
    · exact absurd h (by simp)
  · exact absurd h (by simp)

/-- A move from a producer has this as its only operand. -/
theorem moveFrom?_eq_some {i : Inst} {source : InstId} {dst : String} {uses : List InstId}
    (h : i.moveFrom? source = some (dst, uses)) :
    i.op = Opcode.move ∧ i.args = [.ref source] ∧ i.dst = dst ∧ i.uses = uses := by
  unfold Inst.moveFrom? at h
  split at h
  · rename_i hc
    rw [Option.some.injEq, Prod.mk.injEq] at h
    exact ⟨hc.1, hc.2.1, h.1, h.2⟩
  · exact absurd h (by simp)

/-- A move into a temporary can be forwarded. -/
theorem forwardable?_eq_some {i : Inst} {source : Value} {uses : List InstId}
    (h : i.forwardable? = some (source, uses)) :
    i.op = Opcode.move ∧ i.isTemp = true ∧ i.args = [source] ∧ i.uses = uses := by
  unfold Inst.forwardable? at h
  split at h
  · rename_i v hargs
    split at h
    · rename_i hc
      rw [Option.some.injEq, Prod.mk.injEq] at h
      exact ⟨hc.1, hc.2, h.1 ▸ hargs, h.2⟩
    · exact absurd h (by simp)
  · exact absurd h (by simp)

/-! ## The visits compute what they are named after -/

/-- What a walk needs to know about a visit: it computes a function on programs, keeps them closed,
and takes out at most one instruction. -/
def Visits (visit : InstId → Action Unit) (step : Program → InstId → Program) : Prop :=
  ∀ p id, p.Closed → id ∈ p.order →
    Computes (visit id) p () (step p id) ∧ (step p id).Closed ∧ p.Survives id (step p id)

/-- A walk of such visits computes the sweep, and keeps the program closed. -/
theorem Visits.forEach {visit : InstId → Action Unit} {step : Program → InstId → Program}
    (h : Visits visit step) {p : Program} (hp : p.Closed) :
    Computes (forEach visit) p () (p.sweep step) ∧ (p.sweep step).Closed :=
  ⟨computes_forEach Program.Closed (fun q id hq _ => h q id hq) hp,
    Program.sweep_induction Program.Closed (fun q id hq hid => (h q id hq hid).2.1) hp⟩

/-- A visit that changes only its own instruction. -/
theorem visits_edit {f : Inst → Inst}
    (ha : ∀ i r, Value.ref r ∈ (f i).args → Value.ref r ∈ i.args)
    (hu : ∀ i u, u ∈ (f i).uses → u ∈ i.uses) :
    Visits (fun id => edit id f) fun p id => p.modify id f := by
  intro p id hp hid
  refine ⟨computes_edit (hp.known id hid) f, hp.modify ?_ ?_, .of_order_eq hid rfl rfl⟩
  · exact fun _ r hr => hp.args id hid r (ha _ r hr)
  · exact fun _ u hu' => hp.uses id hid u (hu _ u hu')

/-- Clearing a use-set is a visit. -/
theorem visits_clearUses : Visits clearUses Program.clearUses :=
  visits_edit (fun _ _ h => h) (fun _ _ h => by simp at h)

/-- Lifting from one instruction is a visit. -/
theorem visits_liftOperands (chosen : List Literal) :
    Visits (liftOperands chosen) (Program.liftOperands chosen) := by
  refine visits_edit (fun i r h => ?_) (fun _ _ h => h)
  obtain ⟨v, hv, e⟩ := List.mem_map.mp h
  cases v with
  | literal l => simp only [liftOperand] at e; split at e <;> simp at e
  | ref _ => simpa [← e, liftOperand] using hv
  | name _ => simp [liftOperand] at e

/-- Recording uses is a visit. -/
theorem visits_recordUses : Visits recordUses Program.recordUses := by
  intro p id hp hid
  have hk : ∀ r ∈ refsOf (p.inst id).args, p.Known r :=
    fun r hr => hp.args id hid r (mem_refsOf.mp hr)
  refine ⟨(computes_read (hp.known id hid) (·.args)).bind
    (computes_modifyUses (fun uses => uses ++ [id]) hk), ?_,
    .of_order_eq hid (by simp [Program.recordUses]) (by simp [Program.recordUses])⟩
  refine hp.modifyUses fun l hl u hu => ?_
  rcases List.mem_append.mp hu with hu | hu
  · exact hl u hu
  · exact List.mem_singleton.mp hu ▸ hp.known id hid

/-- The operands that a rule leaves were there before, or are literals. -/
theorem refs_of_rule {rule : Rule}
    (hr : rule = .unitProduct ∨ rule = .unitProductSum ∨ rule = .reciprocal) {i i' : Inst}
    {e : Event} (h : rule i = some (i', e)) :
    i'.uses = i.uses ∧ ∀ r, Value.ref r ∈ i'.args → Value.ref r ∈ i.args := by
  rcases hr with rfl | rfl | rfl
  · obtain ⟨x, -, hargs, rfl⟩ := unitProduct_eq_some h
    exact ⟨rfl, by simp +contextual [hargs]⟩
  · obtain ⟨a, b, -, hargs, rfl⟩ := unitProductSum_eq_some h
    exact ⟨rfl, by rw [hargs]; simp; grind⟩
  · obtain ⟨x, k, -, hargs, rfl⟩ := reciprocal_eq_some h
    exact ⟨rfl, by simp +contextual [hargs]⟩

/-- A visit applies a rule to one instruction. -/
theorem computes_ruleVisit {p : Program} {id : InstId} (hk : p.Known id) (rule : Rule) :
    Computes (rule.visit id) p () (p.applyRule rule id) := by
  refine (computes_editIf hk rule).bind ?_
  cases rule (p.inst id) with
  | none => exact computes_pure ()
  | some ie => exact computes_report ie.2

/-- Applying an algebraic rule is a visit. -/
theorem visits_rule {rule : Rule}
    (hr : rule = .unitProduct ∨ rule = .unitProductSum ∨ rule = .reciprocal) :
    Visits rule.visit (Program.applyRule rule) := by
  intro p id hp hid
  refine ⟨computes_ruleVisit (hp.known id hid) rule, ?_, .of_order_eq hid rfl rfl⟩
  refine hp.modify (fun _ r h => ?_) (fun _ u h => ?_)
  · cases hrule : rule (p.inst id) with
    | none => exact hp.args id hid r (by simpa [hrule] using h)
    | some ie => exact hp.args id hid r ((refs_of_rule hr hrule).2 r (by simpa [hrule] using h))
  · cases hrule : rule (p.inst id) with
    | none => exact hp.uses id hid u (by simpa [hrule] using h)
    | some ie =>
        rw [hrule] at h
        exact hp.uses id hid u ((refs_of_rule hr hrule).1 ▸ h)

/-- Removing dead code is a visit. -/
theorem visits_removeDead : Visits removeDead Program.removeDead := by
  intro p id hp hid
  have hread := computes_read (hp.known id hid) fun i => i
  unfold Program.removeDead
  by_cases hd : (p.inst id).isDead = true
  · rw [if_pos hd]
    refine ⟨hread.bind ?_, hp.remove, .of_erase hp.nodup hid rfl rfl⟩
    rw [if_pos hd]
    exact (computes_unlink hid).bind (computes_report _)
  · rw [if_neg hd]
    refine ⟨hread.bind ?_, hp, .of_order_eq hid rfl rfl⟩
    rw [if_neg hd]
    exact computes_pure ()

/-- A program that a visit leaves alone survives it. -/
theorem Program.Survives.refl {p : Program} {id : InstId} (hid : id ∈ p.order) : p.Survives id p :=
  .of_order_eq hid rfl rfl

/-- Removing a merged product: its consumer inherits its uses. -/
theorem computes_retire {p : Program} {id user : InstId} {a b : Value} (hid : id ∈ p.order)
    (hu : p.Known user) (hrefs : ∀ r ∈ refsOf [a, b], p.Known r) :
    Computes (Fusion.retire id user a b) p () ((p.modifyUses (refsOf [a, b])
      fun uses => replaceUses uses id [user]).remove id) := by
  have hown : ∀ q : Program, q.size = p.size → q.Known user :=
    fun q hq => by simpa [Program.Known, hq] using hu
  refine (computes_modifyUses (fun uses => replaceUses uses id [user]) hrefs).bind ?_
  refine (computes_unlink (by simpa using hid)).bind ?_
  exact (computes_read (hown _ (by simp)) (·.dst)).bind
    ((computes_read (hown _ (by simp)) (·.op)).bind (computes_report _))

/-- The operands of a fused instruction come from the product and from its consumer. -/
theorem mem_args_of_fuse? {mul : InstId} {a b v : Value} {user fused : Inst}
    (h : Fusion.fuse? mul a b user = some fused) (hv : v ∈ fused.args) :
    v ∈ [a, b] ∨ v ∈ user.args := by
  obtain ⟨y, ⟨-, hua, rfl⟩ | ⟨-, hua, rfl⟩⟩ := fuse?_eq_some h
  · have hv' : v ∈ [a, b] ∨ v = y := by simpa [or_assoc] using hv
    rcases hua with hua | hua <;> rw [hua] <;> simp at hv' ⊢ <;> grind
  · have hv' : v ∈ [a, b] ∨ v = y := by simpa [or_assoc] using hv
    rw [hua]
    simp at hv' ⊢
    grind

/-- A merged product keeps the destination and the use-set of the consumer. -/
theorem dst_uses_of_fuse? {mul : InstId} {a b : Value} {user fused : Inst}
    (h : Fusion.fuse? mul a b user = some fused) :
    fused.dst = user.dst ∧ fused.uses = user.uses := by
  obtain ⟨y, ⟨-, -, rfl⟩ | ⟨-, -, rfl⟩⟩ := fuse?_eq_some h <;> exact ⟨rfl, rfl⟩

/-- A program stays closed when a product is merged. -/
theorem Program.Closed.fuse {p : Program} {id user : InstId} {a b : Value} {fused : Inst}
    (hp : p.Closed) (hlive : user ∈ p.order) (hrefs : ∀ r ∈ refsOf [a, b], p.Known r)
    (hf : Fusion.fuse? id a b (p.inst user) = some fused) : (p.fuse id user a b fused).Closed := by
  refine ((hp.modify (f := fun _ => fused) (fun _ r hr => ?_)
    (fun _ u hu => ?_)).modifyUses fun l hl u hu => ?_).remove
  · rcases mem_args_of_fuse? hf hr with hr | hr
    · exact hrefs r (mem_refsOf.mpr hr)
    · exact hp.args user hlive r hr
  · exact hp.uses user hlive u ((dst_uses_of_fuse? hf).2 ▸ hu)
  · rcases List.mem_append.mp hu with hu | hu
    · exact hl u (List.mem_filter.mp hu).1
    · exact List.mem_singleton.mp hu ▸ hp.known user hlive

/-- Merging a product is a visit. -/
theorem visits_fusion : Visits Fusion.visit Program.fuseAt := by
  intro p id hp hid
  have hread := computes_read (hp.known id hid) Fusion.candidate?
  unfold Program.fuseAt
  cases hc : Fusion.candidate? (p.inst id) with
  | none => exact ⟨hread.bind (by rw [hc]; exact computes_pure ()), hp, .refl hid⟩
  | some abu =>
      obtain ⟨a, b, user⟩ := abu
      obtain ⟨-, hargs, huses⟩ := candidate?_eq_some hc
      have hku : p.Known user := hp.uses id hid user (by simp [huses])
      have hrefs : ∀ r ∈ refsOf [a, b], p.Known r := by
        intro r hr
        exact hp.args id hid r (by rw [hargs]; exact mem_refsOf.mp hr)
      rw [hc] at hread
      have hisLive := computes_isLive hku
      by_cases hlive : user ∈ p.order
      · have hedit := computes_editIf hku fun i =>
          (Fusion.fuse? id a b i).map fun i' => (i', ())
        simp only [hlive, decide_true] at hisLive
        simp only [hlive, if_true]
        cases hf : Fusion.fuse? id a b (p.inst user) with
        | none =>
            rw [hf, Program.modify_eq_self (by simp [hf])] at hedit
            exact ⟨hread.bind (hisLive.bind (hedit.bind (computes_pure ()))), hp, .refl hid⟩
        | some fused =>
            have hq : p.modify user (fun i => (((Fusion.fuse? id a b i).map
                fun i' => (i', ())).map (·.1)).getD i) = p.modify user fun _ => fused := by
              simp [Program.modify, hf]
            rw [hf, hq] at hedit
            have hretire := computes_retire (p := p.modify user fun _ => fused) hid hku hrefs
            exact ⟨hread.bind (hisLive.bind (hedit.bind hretire)), hp.fuse hlive hrefs hf,
              .of_erase (x := id) hp.nodup hid (by simp [Program.fuse]) (by simp [Program.fuse])⟩
      · simp only [hlive, decide_false] at hisLive
        simp only [hlive, if_false]
        exact ⟨hread.bind (hisLive.bind (computes_pure ())), hp, .refl hid⟩

/-- Taking over a move computes what it does to the program. -/
theorem computes_takeOver {p : Program} {id user : InstId} (dst : String) {uses : List InstId}
    (hid : p.Known id) (hu : user ∈ p.order) (huses : ∀ u ∈ uses, p.Known u) :
    Computes (takeOver id user dst uses) p () (p.takeOver id user dst uses) := by
  refine (computes_unlink hu).bind ?_
  refine (computes_redirect (p := p.remove user) user (.ref id) huses).bind ?_
  refine (computes_editGet (p := (p.remove user).redirect uses user (.ref id)) hid fun i =>
    (i.dst, { i with dst, uses := (p.remove user).redirected uses user })).bind ?_
  exact computes_report _

/-- A program stays closed when a producer takes over a move. -/
theorem Program.Closed.takeOver {p : Program} {id user : InstId} {dst : String}
    {uses : List InstId} (hp : p.Closed) (hid : id ∈ p.order)
    (huses : ∀ u ∈ uses, p.Known u) : (p.takeOver id user dst uses).Closed := by
  have hq : ((p.remove user).redirect uses user (.ref id)).Closed :=
    hp.remove.redirect fun r hr => by
      cases hr
      exact hp.known id hid
  refine hq.modify (fun hid' r hr => hq.args id hid' r hr) fun _ u hu => ?_
  exact huses u (Program.mem_of_mem_redirected hu).1

/-- Renaming is a visit. -/
theorem visits_renameMove : Visits renameMove Program.renameMove := by
  intro p id hp hid
  have hread := computes_read (hp.known id hid) Inst.soleUser?
  unfold Program.renameMove
  cases hs : (p.inst id).soleUser? with
  | none => exact ⟨hread.bind (by rw [hs]; exact computes_pure ()), hp, .refl hid⟩
  | some user =>
      obtain ⟨huses, -⟩ := soleUser?_eq_some hs
      have hku : p.Known user := hp.uses id hid user (by simp [huses])
      rw [hs] at hread
      have hisLive := computes_isLive hku
      by_cases hlive : user ∈ p.order
      · have hmove := computes_read hku (Inst.moveFrom? id)
        simp only [hlive, decide_true] at hisLive
        simp only [hlive, if_true]
        cases hm : (p.inst user).moveFrom? id with
        | none =>
            rw [hm] at hmove
            exact ⟨hread.bind (hisLive.bind (hmove.bind (computes_pure ()))), hp, .refl hid⟩
        | some du =>
            obtain ⟨dst, uses⟩ := du
            obtain ⟨-, -, -, hmu⟩ := moveFrom?_eq_some hm
            have hkus : ∀ u ∈ uses, p.Known u := fun u hu =>
              hp.uses user hlive u (hmu ▸ hu)
            rw [hm] at hmove
            have htake := computes_takeOver dst (hp.known id hid) hlive hkus
            exact ⟨hread.bind (hisLive.bind (hmove.bind htake)), hp.takeOver hid hkus,
              .of_erase (x := user) hp.nodup hid rfl rfl⟩
      · simp only [hlive, decide_false] at hisLive
        simp only [hlive, if_false]
        exact ⟨hread.bind (hisLive.bind (computes_pure ())), hp, .refl hid⟩

/-- Bypassing a move computes what it does to the program. -/
theorem computes_bypass {p : Program} {id : InstId} {source : Value} {uses : List InstId}
    (hid : id ∈ p.order) (hk : p.Known id) (huses : ∀ u ∈ uses, p.Known u)
    (hs : ∀ r, source = .ref r → p.Known r) :
    Computes (bypass id source uses) p () (p.bypass id source uses) := by
  refine (computes_redirect id source huses).bind ?_
  refine (computes_read (p := p.redirect uses id source) hk (·.dst)).bind ?_
  refine (computes_report _).bind ?_
  refine (computes_modifyUses (fun old => replaceUses old id (p.redirected uses id))
    fun r hr => ?_).bind (computes_unlink (by simpa using hid))
  have hr' : source = .ref r := by simpa [eq_comm] using mem_refsOf.mp hr
  simpa [Program.Known] using hs r hr'

/-- A program stays closed when a move is bypassed. -/
theorem Program.Closed.bypass {p : Program} {id : InstId} {source : Value} {uses : List InstId}
    (hp : p.Closed) (huses : ∀ u ∈ uses, p.Known u) (hs : ∀ r, source = .ref r → p.Known r) :
    (p.bypass id source uses).Closed := by
  refine ((hp.redirect hs).modifyUses fun l hl u hu => ?_).remove
  rcases List.mem_append.mp hu with hu | hu
  · exact hl u (List.mem_filter.mp hu).1
  · exact huses u (Program.mem_of_mem_redirected hu).1

/-- Forwarding is a visit. -/
theorem visits_forwardMove : Visits forwardMove Program.forwardMove := by
  intro p id hp hid
  have hread := computes_read (hp.known id hid) Inst.forwardable?
  unfold Program.forwardMove
  cases hf : (p.inst id).forwardable? with
  | none => exact ⟨hread.bind (by rw [hf]; exact computes_pure ()), hp, .refl hid⟩
  | some su =>
      obtain ⟨source, uses⟩ := su
      obtain ⟨-, -, hargs, hu⟩ := forwardable?_eq_some hf
      have huses : ∀ u ∈ uses, p.Known u := fun u hm => hp.uses id hid u (hu ▸ hm)
      have hs : ∀ r, source = .ref r → p.Known r := fun r hr =>
        hp.args id hid r (by simp [hargs, hr])
      rw [hf] at hread
      exact ⟨hread.bind (computes_bypass hid (hp.known id hid) huses hs), hp.bypass huses hs,
        .of_erase (x := id) hp.nodup hid (by simp [Program.bypass]) (by simp [Program.bypass])⟩

/-! ## Repeated computations -/

/-- Merging a computation computes what it does to the program. -/
theorem computes_mergeInto {p : Program} {first id : InstId} (hp : p.Closed)
    (hf : p.Known first) (hid : id ∈ p.order) :
    Computes (mergeInto first id (p.inst id)) p () (p.merge first id) := by
  refine (computes_redirect id (.ref first) (hp.uses id hid)).bind ?_
  refine (computes_edit (p := p.redirect (p.inst id).uses id (.ref first)) hf
    fun f => { f with uses := f.uses ++ p.redirected (p.inst id).uses id }).bind ?_
  refine (computes_unlink (by simpa using hid)).bind ?_
  refine (computes_read ?_ (·.dst)).bind (computes_report _)
  simpa [Program.Known] using hf

/-- A program stays closed when a computation is merged. -/
theorem Program.Closed.merge {p : Program} {first id : InstId} (hp : p.Closed)
    (hf : first ∈ p.order) (hid : id ∈ p.order) : (p.merge first id).Closed := by
  have hq : (p.redirect (p.inst id).uses id (.ref first)).Closed :=
    hp.redirect fun r hr => by
      cases hr
      exact hp.known first hf
  refine (hq.modify (fun hf' r hr => hq.args first hf' r hr) fun hf' u hu => ?_).remove
  rcases List.mem_append.mp hu with hu | hu
  · exact hq.uses first hf' u hu
  · exact hp.uses id hid u (Program.mem_of_mem_redirected hu).1

/-- The table mentions only identities that exist. -/
def Available.Closed (t : Available) (p : Program) : Prop := ∀ e ∈ t.computed, p.Known e.2

/-- The table mentions what exists when an instruction has been passed. -/
theorem Available.Closed.passBy {t : Available} {p : Program} (h : t.Closed p) (i : Inst) :
    (t.passBy i).Closed p := by
  unfold Available.passBy
  split
  · exact h
  · exact fun e he => h e (List.mem_filter.mp he).1

/-- What is found under a key is an entry. -/
theorem mem_of_lookup_eq_some {κ α : Type} [BEq κ] [LawfulBEq κ] {l : List (κ × α)} {k : κ} {a : α}
    (h : l.lookup k = some a) : (k, a) ∈ l := by
  induction l with
  | nil => simp at h
  | cons e l ih =>
      obtain ⟨k', a'⟩ := e
      rw [List.lookup_cons] at h
      split at h
      · rename_i hk
        obtain rfl : k = k' := by simpa using hk
        simp_all
      · exact List.mem_cons_of_mem _ (ih h)

/-- The earlier instruction is merged with only if both define temporaries. -/
theorem computes_mergeTemps {p : Program} {first id : InstId} (hp : p.Closed)
    (hf : first ∈ p.order) (hid : id ∈ p.order) :
    Computes (mergeTemps first id (p.inst id)) p ()
      (if (p.inst id).isTemp ∧ (p.inst first).isTemp then p.merge first id else p) := by
  unfold mergeTemps
  by_cases ht : (p.inst id).isTemp = true
  · have hread := computes_read (hp.known first hf) (·.dst)
    rw [if_pos ht]
    refine hread.bind ?_
    by_cases hft : (p.inst first).isTemp = true
    · have hft' : isTemp (p.inst first).dst = true := hft
      rw [if_pos hft', if_pos ⟨ht, hft⟩]
      exact computes_mergeInto hp (hp.known first hf) hid
    · have hft' : ¬ isTemp (p.inst first).dst = true := hft
      rw [if_neg hft', if_neg fun h => hft h.2]
      exact computes_pure ()
  · rw [if_neg ht, if_neg fun h => ht h.1]
    exact computes_pure ()

/-- One visit of the search for repeated computations. -/
theorem computes_mergeDuplicate {t : Available} {p : Program} {id : InstId} (hp : p.Closed)
    (ht : t.Closed p) (hid : id ∈ p.order) :
    Computes (mergeDuplicate t id) p (p.mergeDuplicate t id).1 (p.mergeDuplicate t id).2 ∧
      ((p.mergeDuplicate t id).2.Closed ∧
        (p.mergeDuplicate t id).1.Closed (p.mergeDuplicate t id).2) ∧
      p.Survives id (p.mergeDuplicate t id).2 := by
  have hread := computes_read (hp.known id hid) fun i => i
  have ht' := ht.passBy (p.inst id)
  have hinsert : ((t.passBy (p.inst id)).insert (p.inst id).key id).Closed p := by
    intro e he
    rcases List.mem_cons.mp he with rfl | he
    · exact hp.known id hid
    · exact ht' e he
  cases hfind : (t.passBy (p.inst id)).find? (p.inst id).key with
  | none =>
      rw [Program.mergeDuplicate_of_none hfind]
      refine ⟨hread.bind ?_, ⟨hp, hinsert⟩, .refl hid⟩
      simp only [hfind]
      exact computes_pure _
  | some first =>
      have hkf : p.Known first := ht' _ (mem_of_lookup_eq_some hfind)
      have hisLive := computes_isLive hkf
      by_cases hlive : first ∈ p.order
      · simp only [hlive, decide_true] at hisLive
        rw [Program.mergeDuplicate_of_live hfind hlive]
        have hmerge := computes_mergeTemps hp hlive hid
        refine ⟨hread.bind ?_, ?_⟩
        · simp only [hfind]
          exact hisLive.bind (hmerge.bind (computes_pure _))
        · by_cases hboth : (p.inst id).isTemp = true ∧ (p.inst first).isTemp = true
          · simp only [hboth, and_self, if_true]
            exact ⟨⟨hp.merge hlive hid, fun e he => by
              simpa [Program.Known, Program.merge] using ht' e he⟩,
              .of_erase (x := id) hp.nodup hid rfl rfl⟩
          · simp only [hboth, if_false]
            exact ⟨⟨hp, ht'⟩, .refl hid⟩
      · simp only [hlive, decide_false] at hisLive
        rw [Program.mergeDuplicate_of_gone hfind hlive]
        refine ⟨hread.bind ?_, ⟨hp, hinsert⟩, .refl hid⟩
        simp only [hfind]
        exact hisLive.bind (computes_pure _)

/-! ## Lifting -/

namespace Program

/-- The names the program takes slots for, in order of first occurrence. -/
def externalNames (p : Program) : List String :=
  p.order.foldl (fun names id => addNew names (p.inst id).externalNames) []

/-- The literals that take instructions to build, in order of first occurrence. -/
def costlyLiterals (p : Program) : List Literal :=
  p.order.foldl
    (fun found id => addNew found ((literalsOf (p.inst id).args).filter (·.cost ≠ 0))) []

/-- The literals to lift: as many of the costliest as there are free slots. -/
def chooseLiterals (p : Program) (slots : Int) : List Literal :=
  drain (freeSlots slots p.externalNames.length).toNat (ranked p.costlyLiterals)

/-- Lifts the costliest literals into the free slots. -/
def lift (slots : Int) (p : Program) : Program :=
  if (p.chooseLiterals slots).isEmpty then p
  else p.sweep (liftOperands (p.chooseLiterals slots))

/-- A walk that changes nothing gives a fold over the order. -/
theorem foldLive_of_same {β : Type} (f : β → InstId → β) (ids : List InstId) (b : β)
    (p : Program) (hids : ∀ id ∈ ids, id ∈ p.order) :
    foldLive (fun b q id => (f b id, q)) ids (b, p) = (ids.foldl f b, p) := by
  induction ids generalizing b with
  | nil => rfl
  | cons id ids ih =>
      have : foldLive (fun b q id => (f b id, q)) (id :: ids) (b, p) =
          foldLive (fun b q id => (f b id, q)) ids (f b id, p) := by
        simp [foldLive, hids id (by simp)]
      rw [this, ih _ fun x hx => hids x (by simp [hx])]
      rfl

end Program

/-- A walk that only looks. -/
theorem computes_foldEach_of_same {β : Type} {p : Program} {visit : β → InstId → Action β}
    (f : β → InstId → β) (h : ∀ b, ∀ id ∈ p.order, Computes (visit b id) p (f b id) p) (b : β) :
    Computes (foldEach visit b) p (p.order.foldl f b) p := by
  have hstep : ∀ (b : β) (q : Program) id, q = p → q.order.Nodup → id ∈ q.order →
      Computes (visit b id) q (f b id) q ∧ q = p ∧ q.Survives id q := by
    rintro b q id rfl _ hid
    exact ⟨h b id hid, rfl, .refl hid⟩
  have hwalk := computes_foldEach (fun b q id => (f b id, q)) (fun _ q => q = p) hstep rfl (b := b)
  rw [Program.foldLive_of_same f _ _ _ fun _ h => h] at hwalk
  exact hwalk

/-- A walk that collects something from each instruction. -/
theorem computes_collect {α β : Type} {p : Program} (hk : ∀ id ∈ p.order, p.Known id)
    (f : β → α → β) (look : Inst → α) (b : β) :
    Computes (foldEach (fun b id => do pure (f b (← read id look))) b) p
      (p.order.foldl (fun b id => f b (look (p.inst id))) b) p := by
  apply computes_foldEach_of_same (fun b id => f b (look (p.inst id)))
  intro b id hid
  exact (computes_read (hk id hid) look).bind (computes_pure _)

/-- The literals to lift are chosen without a change of the program. -/
theorem computes_chooseLiterals {p : Program} (hk : ∀ id ∈ p.order, p.Known id) (slots : Int) :
    Computes (chooseLiterals slots) p (p.chooseLiterals slots) p := by
  refine (computes_collect hk addNew Inst.externalNames []).bind ?_
  have hfound := computes_collect hk addNew
    (fun i => (literalsOf i.args).filter (·.cost ≠ 0)) []
  refine Computes.bind (x := costlyLiterals) hfound ?_
  exact computes_pure _

/-- Lifting follows no references, so it is enough that the instructions exist. -/
theorem computes_lift {p : Program} (hk : ∀ id ∈ p.order, p.Known id) (slots : Int) :
    Computes (lift slots) p () (p.lift slots) := by
  have hreport : ∀ chosen : List Literal,
      Computes (chosen.forM fun l => report (.lifted l)) p () p := by
    intro chosen
    induction chosen with
    | nil => exact computes_pure ()
    | cons l chosen ih => exact (computes_report _).bind ih
  have hall : Computes (forEach (liftOperands (p.chooseLiterals slots))) p ()
      (p.sweep (Program.liftOperands (p.chooseLiterals slots))) := by
    refine computes_forEach (fun q => ∀ id ∈ q.order, q.Known id) (fun q id hq _ hid => ?_) hk
    exact ⟨computes_edit (hq id hid) _, hq, .of_order_eq hid rfl rfl⟩
  refine (computes_chooseLiterals hk slots).bind ((hreport _).bind ?_)
  unfold Program.lift
  by_cases he : (p.chooseLiterals slots).isEmpty = true
  · rw [if_pos he, if_pos he]
    exact computes_pure ()
  · rw [if_neg he, if_neg he]
    exact hall

/-- A program stays closed when literals are lifted. -/
theorem Program.Closed.lift {p : Program} (hp : p.Closed) (slots : Int) :
    (p.lift slots).Closed := by
  unfold Program.lift
  split
  · exact hp
  · exact ((visits_liftOperands (p.chooseLiterals slots)).forEach hp).2

/-! ## The passes -/

namespace Program

/-- Merges every product that can be into its consumer. -/
def fusion (p : Program) : Program := p.sweep fuseAt

/-- Applies the three rules, one after the other. -/
def algebra (p : Program) : Program :=
  ((p.sweep (applyRule .unitProduct)).sweep (applyRule .unitProductSum)).sweep
    (applyRule .reciprocal)

/-- Removes every dead instruction. -/
def deadCode (p : Program) : Program := p.sweep removeDead

/-- Removes redundant moves, by renaming first. -/
def moves (p : Program) : Program := (p.sweep renameMove).sweep forwardMove

/-- Merges repeated computations of temporaries. -/
def duplicates (p : Program) : Program := (foldLive mergeDuplicate p.order ({}, p)).2

/-- What a pass does to a program. -/
def apply : Pass → Program → Program
  | .analysis => analyze
  | .fusion => fusion
  | .algebra => algebra
  | .deadCode => deadCode
  | .moves => moves
  | .duplicates => duplicates
  | .lift slots => lift slots

end Program

/-- An analysis runs on every closed program and keeps it closed. -/
theorem computes_analyze {p : Program} (hp : p.Closed) :
    Computes analyze p () p.analyze ∧ p.analyze.Closed := by
  obtain ⟨h₁, hc₁⟩ := visits_clearUses.forEach hp
  obtain ⟨h₂, hc₂⟩ := visits_recordUses.forEach hc₁
  exact ⟨h₁.bind h₂, hc₂⟩

/-- What an action computes on the analysed program. -/
theorem Computes.after_analyze {x : Action Unit} {p q : Program} (hx : Computes x p.analyze () q)
    (hp : p.Closed) : Computes (do analyze; x) p () q :=
  (computes_analyze hp).1.bind (f := fun _ => x) hx

/-- Every pass succeeds on every store that holds a closed program, and leaves the program that its
function gives. -/
theorem computes_apply (pass : Pass) {p : Program} (hp : p.Closed) :
    Computes pass.apply p () (p.apply pass) ∧ (p.apply pass).Closed := by
  cases pass with
  | analysis => exact computes_analyze hp
  | fusion => exact visits_fusion.forEach hp
  | algebra =>
      obtain ⟨h₁, hc₁⟩ := (visits_rule (.inl rfl)).forEach hp
      obtain ⟨h₂, hc₂⟩ := (visits_rule (.inr (.inl rfl))).forEach hc₁
      obtain ⟨h₃, hc₃⟩ := (visits_rule (.inr (.inr rfl))).forEach hc₂
      exact ⟨h₁.bind (h₂.bind h₃), hc₃⟩
  | deadCode => exact visits_removeDead.forEach hp
  | moves =>
      obtain ⟨h₁, hc₁⟩ := visits_renameMove.forEach hp
      obtain ⟨h₂, hc₂⟩ := visits_forwardMove.forEach hc₁
      exact ⟨h₁.bind h₂, hc₂⟩
  | duplicates =>
      have hstep : ∀ (t : Available) q id, (q.Closed ∧ t.Closed q) → q.order.Nodup →
          id ∈ q.order → _ := fun t q id h _ hid => computes_mergeDuplicate h.1 h.2 hid
      have hstart : p.Closed ∧ ({} : Available).Closed p := ⟨hp, by simp [Available.Closed]⟩
      have h := computes_foldEach Program.mergeDuplicate (fun t q => q.Closed ∧ t.Closed q) hstep
        hstart
      refine ⟨h.bind (computes_pure ()), ?_⟩
      exact (Program.foldLive_induction (fun t q => q.Closed ∧ Available.Closed t q)
        (fun t q id hq hid => (computes_mergeDuplicate hq.1 hq.2 hid).2.1) p.order hstart).1
  | lift slots => exact ⟨computes_lift hp.known slots, hp.lift slots⟩

end Straightline
