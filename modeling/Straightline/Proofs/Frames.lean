import Straightline.Pass

/-!
# What an action leaves alone

`Keeps seen x` says that the action `x` does not change what `seen` shows of the workspace, however
it ends. It composes along `do` and along walks. An action that only looks keeps everything. One
that edits slots keeps what stands aside from them (`AsideSlots`). The operations on the program
order change its ends and the slots with their links, so they keep what stands aside from all of
these (`Aside`): the records of accesses, for instance, or the table of temporaries. The passes are
made of such operations, so they keep as much (`Keeps.apply`).
-/

set_option autoImplicit false

namespace Straightline

/-- The workspace that an action leaves, by whichever end. -/
def leaves {α : Type} (x : Action α) (w : Workspace) : Workspace :=
  match x w with
  | .ok _ w' => w'
  | .error _ w' => w'

/-- An action with a result leaves what stands beside the result. -/
theorem leaves_of_ok {α : Type} {x : Action α} {w w' : Workspace} {a : α} (h : x w = .ok a w') :
    leaves x w = w' := by
  rw [leaves, h]

/-- An action that ends in a fault leaves what stands beside the fault. -/
theorem leaves_of_error {α : Type} {x : Action α} {w w' : Workspace} {e : Fault}
    (h : x w = .error e w') : leaves x w = w' := by
  rw [leaves, h]

/-- What `seen` shows of the workspace is the same after the action, however it ends. -/
def Keeps {α γ : Type} (seen : Workspace → γ) (x : Action α) : Prop :=
  ∀ w, seen (leaves x w) = seen w

/-- What stands aside from the slots: their instructions, links and marks do not show in it. -/
structure AsideSlots {γ : Type} (seen : Workspace → γ) : Prop where
  slot : ∀ (w : Workspace) (id : InstId) (f : Slot → Slot), (∀ slot, (f slot).hold = slot.hold) →
    seen { w with store := w.store.modifySlot id f } = seen w

/-- What stands aside from the program: the ends of the program order, new slots and events do not
show in it either. -/
structure Aside {γ : Type} (seen : Workspace → γ) : Prop extends AsideSlots seen where
  fill : ∀ (w : Workspace) (i : Inst),
    seen { w with store := { w.store with toArena := w.store.fill i } } = seen w
  share : ∀ (w : Workspace) (id : InstId),
    seen { w with store := { w.store with toArena := w.store.share id } } = seen w
  head : ∀ (w : Workspace) (first : Option InstId),
    seen { w with store := { w.store with head := first } } = seen w
  tail : ∀ (w : Workspace) (last : Option InstId),
    seen { w with store := { w.store with tail := last } } = seen w
  journal : ∀ (w : Workspace) (e : Event), seen { w with journal := w.journal.push e } = seen w

/-- The table of temporaries stands aside from the program. -/
theorem aside_temps : Aside fun w => w.store.temps where
  slot w id f _ := w.store.temps_modifySlot id f
  fill _ _ := rfl
  share _ _ := rfl
  head _ _ := rfl
  tail _ _ := rfl
  journal _ _ := rfl

namespace Keeps

variable {α β γ : Type} {seen : Workspace → γ}

/-- What is kept is the same beside a result. -/
theorem of_ok {x : Action α} (h : Keeps seen x) {w w' : Workspace} {a : α}
    (hrun : x w = .ok a w') : seen w' = seen w := by
  rw [← leaves_of_ok hrun, h w]

/-- What two actions keep is kept by the one after the other. -/
theorem bind {x : Action α} {f : α → Action β} (hx : Keeps seen x) (hf : ∀ a, Keeps seen (f a)) :
    Keeps seen (x >>= f) := by
  intro w
  have h := hx w
  cases hrun : x w with
  | error e w' =>
      have hbind : (x >>= f) w = .error e w' := by simp only [Bind.bind, EStateM.bind, hrun]
      rwa [leaves_of_error hbind, ← leaves_of_error hrun]
  | ok a w' =>
      have hbind : leaves (x >>= f) w = leaves (f a) w' := by
        simp only [leaves, Bind.bind, EStateM.bind, hrun]
      rw [hbind, hf a w', ← leaves_of_ok hrun, h]

/-! ## Actions that only look -/

/-- An action that leaves every workspace as it was keeps everything. -/
theorem of_leaves {x : Action α} (h : ∀ w, leaves x w = w) : Keeps seen x := fun w => by rw [h w]

/-- A plain result keeps everything. -/
theorem pure (a : α) : Keeps seen (Pure.pure a : Action α) := .of_leaves fun _ => rfl

/-- A fault keeps everything. -/
theorem throw (e : Fault) : Keeps seen (MonadExcept.throw e : Action α) := .of_leaves fun _ => rfl

/-- What the action of each element keeps, the actions of a list keep. -/
theorem forM {f : α → Action Unit} (hf : ∀ a, Keeps seen (f a)) (l : List α) :
    Keeps seen (l.forM f) := by
  induction l with
  | nil => exact .pure ()
  | cons a l ih => exact .bind (hf a) fun _ => ih

/-- A look at the workspace keeps everything. -/
theorem get : Keeps seen (MonadState.get : Action Workspace) := .of_leaves fun _ => rfl

/-- Finding a slot keeps everything. -/
theorem getSlot (id : InstId) : Keeps seen (Straightline.getSlot id) := by
  refine .of_leaves fun w => ?_
  unfold leaves
  cases h : w.store.slot? id with
  | none => rw [getSlot_of_none h]
  | some slot => rw [getSlot_of_some h]

/-- The check of a view keeps everything. -/
theorem allowView (id : InstId) (slot : Slot) : Keeps seen (Straightline.allowView id slot) := by
  unfold Straightline.allowView
  split
  · exact .pure _
  · exact .throw _

/-- The check of an update keeps everything. -/
theorem allowUpdate (id : InstId) (slot : Slot) :
    Keeps seen (Straightline.allowUpdate id slot) := by
  unfold Straightline.allowUpdate
  split
  · exact .pure _
  · exact .throw _
  · exact .throw _

/-- A look at a slot keeps everything. -/
theorem readSlot (id : InstId) (f : Slot → α) : Keeps seen (Straightline.readSlot id f) :=
  .bind (.getSlot id) fun slot => .bind (.allowView id slot) fun _ => .pure _

/-- The question whether an instruction is live keeps everything. -/
theorem isLive (id : InstId) : Keeps seen (Straightline.isLive id) := by
  unfold Straightline.isLive
  split
  · exact .pure _
  · exact .bind (.getSlot id) fun _ => .pure _

/-- Looking for the way ahead keeps everything. -/
theorem nextUnless (before : Option InstId) (id : InstId) :
    Keeps seen (Straightline.nextUnless before id) := by
  refine .bind (.isLive id) fun live => ?_
  split
  · exact .readSlot id _
  · exact .pure _

/-! ## Walks -/

/-- What every visit keeps, a walk keeps. -/
theorem foldFrom {visit : β → InstId → Action β} (hvisit : ∀ b id, Keeps seen (visit b id))
    (steps : Nat) (start : Option InstId) (b : β) :
    Keeps seen (Straightline.foldFrom visit steps start b) := by
  induction steps generalizing start b with
  | zero =>
      cases start with
      | none => exact .pure b
      | some id => exact .throw _
  | succ steps ih =>
      cases start with
      | none => exact .pure b
      | some id =>
          exact .bind (.readSlot id _) fun ahead => .bind (hvisit b id) fun b' =>
            .bind (.nextUnless ahead id) fun next => ih next b'

/-- So does the walk over the whole order. -/
theorem foldEach {visit : β → InstId → Action β} (hvisit : ∀ b id, Keeps seen (visit b id))
    (b : β) : Keeps seen (Straightline.foldEach visit b) :=
  .bind .get fun _ => .foldFrom hvisit _ _ b

/-! ## Actions that change the program -/

section Slots

variable (hs : AsideSlots seen)

include hs

/-- A change of a slot that passes by the record keeps what stands aside from the slots. -/
theorem modifySlot (id : InstId) {f : Slot → Slot} (hf : ∀ slot, (f slot).hold = slot.hold) :
    Keeps seen (modifyStore (·.modifySlot id f)) := fun w => hs.slot w id f hf

/-- So does the checked change. -/
theorem editSlot (id : InstId) {f : Slot → Slot} (hf : ∀ slot, (f slot).hold = slot.hold) :
    Keeps seen (Straightline.editSlot id f) :=
  .bind (.getSlot id) fun slot => .bind (.allowUpdate id slot) fun _ => .modifySlot hs id hf

/-- A change of an instruction keeps what stands aside from the slots. -/
theorem edit (id : InstId) (f : Inst → Inst) : Keeps seen (Straightline.edit id f) :=
  .editSlot hs id fun _ => rfl

/-- So does a change of an instruction that answers with what was there. -/
theorem editGet (id : InstId) (f : Inst → α × Inst) : Keeps seen (Straightline.editGet id f) :=
  .bind (.getSlot id) fun slot => .bind (.allowUpdate id slot) fun _ =>
    .bind (.modifySlot hs id fun _ => rfl) fun _ => .pure _

/-- The analysis changes use-sets only. -/
theorem analyze : Keeps seen Straightline.analyze := by
  refine .bind (.foldEach (fun _ id => .edit hs id _) ()) fun _ => .foldEach (fun _ id => ?_) ()
  exact .bind (.readSlot id _) fun args => .forM (fun r => .edit hs r _) (refsOf args)

end Slots

section Aside

variable (hs : Aside seen)

include hs

/-- An event keeps what stands aside from the program. -/
theorem report (e : Event) : Keeps seen (Straightline.report e) := fun w => hs.journal w e

/-- A new slot keeps what stands aside from the program, whatever is put there. -/
theorem occupy (n : Newcomer) : Keeps seen (Straightline.occupy n) := by
  cases n with
  | made i => exact fun w => hs.fill w i
  | again id =>
      refine .bind (.getSlot id) fun t => ?_
      split
      · exact .throw _
      · exact fun w => hs.share w id

/-- So does a new slot that answers with its identity. -/
theorem allocate (n : Newcomer) : Keeps seen (Straightline.allocate n) :=
  .bind .get fun _ => .bind (.occupy hs n) fun _ => .pure _

/-- A link forward, or the head, may change without a trace in what stands aside. -/
theorem setNext (before after : Option InstId) :
    Keeps seen (Straightline.setNext before after) := by
  cases before with
  | none => exact fun w => hs.head w after
  | some id => exact .editSlot hs.toAsideSlots id fun _ => rfl

/-- So may a link backward, or the tail. -/
theorem setPrev (after before : Option InstId) :
    Keeps seen (Straightline.setPrev after before) := by
  cases after with
  | none => exact fun w => hs.tail w before
  | some id => exact .editSlot hs.toAsideSlots id fun _ => rfl

/-- An insertion at the end keeps what stands aside from the program. -/
theorem append (n : Newcomer) : Keeps seen (Straightline.append n) :=
  .bind (.allocate hs n) fun id => .bind .get fun _ =>
    .bind (.modifySlot hs.toAsideSlots id fun _ => rfl) fun _ => .bind (.setNext hs _ _) fun _ =>
      .bind (fun w => hs.tail w (some id)) fun _ => .pure _

/-- So does an insertion at the beginning. -/
theorem prepend (n : Newcomer) : Keeps seen (Straightline.prepend n) :=
  .bind (.allocate hs n) fun id => .bind .get fun _ =>
    .bind (.modifySlot hs.toAsideSlots id fun _ => rfl) fun _ => .bind (.setPrev hs _ _) fun _ =>
      .bind (fun w => hs.head w (some id)) fun _ => .pure _

/-- So does a removal. -/
theorem unlink (id : InstId) : Keeps seen (Straightline.unlink id) := by
  refine .bind (.isLive id) fun live => ?_
  split
  · exact .bind (.getSlot id) fun _ => .bind (.editSlot hs.toAsideSlots id fun _ => rfl) fun _ =>
      .bind (.setNext hs _ _) fun _ => .bind (.setPrev hs _ _) fun _ =>
        .modifySlot hs.toAsideSlots id fun _ => rfl
  · exact .throw _

/-! ## Passes -/

/-- Redirecting consumers keeps what stands aside from the program. -/
theorem redirectFrom (old : InstId) (v : Value) (found users : List InstId) :
    Keeps seen (Straightline.redirectFrom old v found users) := by
  induction users generalizing found with
  | nil => exact .pure _
  | cons user users ih =>
      unfold Straightline.redirectFrom
      split
      · exact ih _
      · refine .bind (.isLive user) fun live => ?_
        split
        · exact .bind (.editGet hs.toAsideSlots user _) fun _ => .bind (ih _) fun _ => .pure _
        · exact ih _

/-- So does the fusion of products with their consumers. -/
theorem fusion : Keeps seen Straightline.fusion := by
  have hretire : ∀ id user a b, Keeps seen (Fusion.retire id user a b) := fun id user a b =>
    .bind (.forM (fun r => .edit hs.toAsideSlots r _) _) fun _ => .bind (.unlink hs id) fun _ =>
      .bind (.readSlot user _) fun _ => .bind (.readSlot user _) fun _ => .report hs _
  refine .foldEach (fun _ id => .bind (.readSlot id _) fun found => ?_) ()
  split
  · exact .pure ()
  · refine .bind (.isLive _) fun live => ?_
    split
    · refine .bind (.editGet hs.toAsideSlots _ _) fun fused => ?_
      split
      · exact hretire _ _ _ _
      · exact .pure _
    · exact .pure _

/-- So does a sweep with an algebraic rule. -/
theorem ruleSweep (rule : Rule) : Keeps seen rule.sweep := by
  refine .foldEach (fun _ id => .bind (.editGet hs.toAsideSlots id _) fun event => ?_) ()
  cases event with
  | none => exact .pure ()
  | some e => exact .report hs e

/-- So does the removal of dead code. -/
theorem deadCode : Keeps seen Straightline.deadCode := by
  refine .foldEach (fun _ id => .bind (.readSlot id _) fun i => ?_) ()
  split
  · exact .bind (.unlink hs id) fun _ => .report hs _
  · exact .pure ()

/-- So does the removal of moves. -/
theorem moves : Keeps seen Straightline.moves := by
  refine .bind (.foldEach (fun _ id => .bind (.readSlot id _) fun user => ?_) ()) fun _ =>
    .foldEach (fun _ id => .bind (.readSlot id _) fun source => ?_) ()
  · split
    · exact .pure ()
    · refine .bind (.isLive _) fun live => ?_
      split
      · refine .bind (.readSlot _ _) fun found => ?_
        split
        · exact .pure ()
        · exact .bind (.unlink hs _) fun _ => .bind (.redirectFrom hs _ _ _ _) fun _ =>
            .bind (.editGet hs.toAsideSlots _ _) fun _ => .report hs _
      · exact .pure ()
  · split
    · exact .pure ()
    · exact .bind (.redirectFrom hs _ _ _ _) fun _ => .bind (.readSlot _ _) fun _ =>
        .bind (.report hs _) fun _ => .bind (.forM (fun r => .edit hs.toAsideSlots r _) _) fun _ =>
          .unlink hs _

/-- So does the merging of repeated computations. -/
theorem duplicates : Keeps seen Straightline.duplicates := by
  have hmerge : ∀ first id i, Keeps seen (mergeTemps first id i) := by
    intro first id i
    unfold mergeTemps
    split
    · refine .bind (.readSlot first _) fun into => ?_
      split
      · exact .bind (.redirectFrom hs _ _ _ _) fun _ =>
          .bind (.edit hs.toAsideSlots first _) fun _ => .bind (.unlink hs id) fun _ =>
            .bind (.readSlot first _) fun _ => .report hs _
      · exact .pure ()
    · exact .pure ()
  refine .bind (.foldEach (fun t id => .bind (.readSlot id _) fun i => ?_) _) fun _ => .pure ()
  dsimp only
  split
  · exact .pure _
  · refine .bind (.isLive _) fun live => ?_
    split
    · exact .bind (hmerge _ id i) fun _ => .pure _
    · exact .pure _

omit hs in
/-- Choosing what to lift keeps everything. -/
theorem chooseLiterals (slots : Int) : Keeps seen (Straightline.chooseLiterals slots) := by
  have hcollect : ∀ {δ : Type} [BEq δ] (look : Inst → List δ),
      Keeps seen (Straightline.foldEach
        (fun found id => do Pure.pure (addNew found (← Straightline.read id look))) []) := by
    intro δ _ look
    exact .foldEach (fun _ id => .bind (.readSlot id _) fun _ => .pure _) []
  exact .bind (hcollect _) fun _ => .bind (hcollect _) fun _ => .pure _

/-- Lifting literals keeps what stands aside from the program. -/
theorem lift (slots : Int) : Keeps seen (Straightline.lift slots) := by
  refine .bind (.chooseLiterals slots) fun chosen =>
    .bind (.forM (fun l => .report hs _) chosen) fun _ => ?_
  split
  · exact .pure ()
  · exact .foldEach (fun _ id => .edit hs.toAsideSlots id _) ()

/-- So does every pass. -/
theorem apply (pass : Pass) : Keeps seen pass.apply := by
  cases pass with
  | analysis => exact .analyze hs.toAsideSlots
  | fusion => exact .fusion hs
  | algebra =>
      exact .bind (.ruleSweep hs _) fun _ => .bind (.ruleSweep hs _) fun _ => .ruleSweep hs _
  | deadCode => exact .deadCode hs
  | moves => exact .moves hs
  | duplicates => exact .duplicates hs
  | lift slots => exact .lift hs slots

end Aside

end Keeps

end Straightline
