import Straightline.Proofs.Preservation
import Straightline.Proofs.Rendering
import Straightline.Proofs.Runs
import Straightline.Proofs.Writable

/-!
# Merging repeated computations

The search for repeated computations keeps the runs of every program that was read, however often
its names are written (`sameRuns_of_duplicates`). Two temporaries are merged only if they spell the
same computation and no name that they read has been written in between.

The second half is what the table of available computations is for. `Program.Current` says what it
guarantees during the walk: each entry is noted as a reader of all its names, and none of these has
been written since. Passing an instruction keeps this, because writing a name strikes out the
entries noted as its readers. Nothing is claimed about the name that an entry's own instruction
writes. An instruction that reads this name enters the table without being noted for it, and this
does no harm because such entries are never merged into.
-/

set_option autoImplicit false

namespace Straightline

/-! ## The table -/

namespace Available

variable {t : Available} {i : Inst} {key n : String}

theorem mem_readers_noteReads {names : List String} (h : (n, key) ∈ t.readers) (k : String) :
    (n, key) ∈ (t.noteReads k names).readers :=
  List.mem_append_right _ h

/-- An entry survives a write only if it was not noted as a reader of the name. -/
theorem mem_computed_overwrite {name : String} {e : String × InstId}
    (h : e ∈ (t.overwrite name).computed) : e ∈ t.computed ∧ (name, e.1) ∉ t.readers := by
  obtain ⟨he, hstale⟩ := List.mem_filter.mp h
  refine ⟨he, fun hr => ?_⟩
  have hmem : e.1 ∈ (t.readers.filter (·.1 = name)).map (·.2) :=
    List.mem_map.mpr ⟨(name, e.1), List.mem_filter.mpr ⟨hr, by simp⟩, rfl⟩
  simp [hmem] at hstale

theorem mem_readers_overwrite {name : String} (h : (n, key) ∈ t.readers) (hne : n ≠ name) :
    (n, key) ∈ (t.overwrite name).readers :=
  List.mem_filter.mpr ⟨h, by simpa using hne⟩

/-- An instruction is noted as a reader of its names, unless it writes them itself. -/
theorem mem_readers_passBy (hi : i.isTemp = false → i.dst ≠ n) (hn : .name n ∈ i.args) :
    (n, i.key) ∈ (t.passBy i).readers := by
  have hmem : (n, i.key) ∈ (t.noteReads i.key (namesOf i.args)).readers :=
    List.mem_append_left _ (List.mem_map.mpr ⟨n, mem_namesOf.mpr hn, rfl⟩)
  unfold passBy
  cases ht : i.isTemp with
  | true => exact hmem
  | false => exact mem_readers_overwrite hmem (hi ht).symm

/-- What an entry still in the table after an instruction means: the instruction did not write a
name that the entry is noted for, and the note is still there. -/
theorem of_mem_passBy {e : String × InstId} (he : e ∈ (t.passBy i).computed) :
    e ∈ t.computed ∧ ∀ n, (n, e.1) ∈ t.readers →
      (n, e.1) ∈ (t.passBy i).readers ∧ (i.isTemp = false → i.dst ≠ n) := by
  unfold passBy at he ⊢
  by_cases hi : i.isTemp = true
  · rw [if_pos hi] at he ⊢
    refine ⟨he, fun n hn => ⟨mem_readers_noteReads hn _, fun hf => ?_⟩⟩
    exact absurd (hf.symm.trans hi) (by simp)
  · rw [if_neg hi] at he ⊢
    obtain ⟨he, hnot⟩ := mem_computed_overwrite he
    refine ⟨he, fun n hn => ?_⟩
    have hn' : (n, e.1) ∈ (t.noteReads i.key (namesOf i.args)).readers :=
      mem_readers_noteReads hn i.key
    have hne : i.dst ≠ n := by
      rintro rfl
      exact hnot hn'
    exact ⟨mem_readers_overwrite hn' hne.symm, fun _ => hne⟩

end Available

namespace Program

variable {V : Type*} {I : Interpretation V} {p q : Program} {t : Available} {id first : InstId}
  {rest : List InstId}

/-- Each entry is noted as a reader of the names that its instruction reads and does not write, and
none of them has been written since. `rest` is what is still ahead. -/
def Current (rest : List InstId) (t : Available) (q : Program) : Prop :=
  ∀ e ∈ t.computed, e.2 ∈ q.order → ∀ n, .name n ∈ (q.inst e.2).args → ¬ q.Defines e.2 n →
    (n, e.1) ∈ t.readers ∧ ∀ y, q.Precedes e.2 y → y ∉ rest → ¬ q.Defines y n

/-- The table stays current where an instruction is gone. -/
theorem Current.skip (h : Current (id :: rest) t q) (hid : id ∉ q.order) : Current rest t q := by
  intro e he hlive n hn hown
  obtain ⟨hnoted, hsince⟩ := h e he hlive n hn hown
  refine ⟨hnoted, fun y hy hyr => hsince y hy fun hmem => ?_⟩
  rcases List.mem_cons.mp hmem with rfl | hmem
  · exact hid hy.right_mem
  · exact hyr hmem

/-- The table stays current when an instruction is passed. -/
theorem Current.passBy (h : Current (id :: rest) t q) :
    Current rest (t.passBy (q.inst id)) q := by
  intro e he hlive n hn hown
  obtain ⟨he', hkept⟩ := Available.of_mem_passBy he
  obtain ⟨hnoted, hsince⟩ := h e he' hlive n hn hown
  obtain ⟨hnoted', hdst⟩ := hkept n hnoted
  refine ⟨hnoted', fun y hy hyr hd => ?_⟩
  by_cases hyid : y = id
  · rw [hyid] at hd
    exact hdst hd.2.1 hd.2.2
  · exact hsince y hy (by simp [hyid, hyr]) hd

/-- A new entry is current, since all that comes after it is still ahead. -/
theorem Current.insert (h : Current rest (t.passBy (q.inst id)) q)
    (hahead : ∀ y, q.Precedes id y → y ∈ rest) :
    Current rest ((t.passBy (q.inst id)).insert (q.inst id).key id) q := by
  intro e he hlive n hn hown
  rcases List.mem_cons.mp he with rfl | he
  · have hdst : (q.inst id).isTemp = false → (q.inst id).dst ≠ n := fun ht hd =>
      hown ⟨hlive, ht, hd⟩
    exact ⟨Available.mem_readers_passBy hdst hn, fun y hy hyr => absurd (hahead y hy) hyr⟩
  · exact h e he hlive n hn hown

/-! ## One merge -/

/-- Merging changes no destination. -/
theorem dst_merge (hq : q.Consistent) (hid : id ∈ q.order) {x : InstId} (hx : x ∈ q.order) :
    ((q.merge first id).inst x).dst = (q.inst x).dst := by
  rw [inst_merge hq first hid hx]
  rfl

/-- Two temporaries with the same computation have the same value if no name that they read is
written between them. -/
theorem keepsResults_merge (hq : q.Consistent) (hpre : q.Precedes first id)
    (hf : (q.inst first).isTemp = true) (ht : (q.inst id).isTemp = true)
    (hop : (q.inst first).op = (q.inst id).op) (hargs : (q.inst first).args = (q.inst id).args)
    (hkept : ∀ n, .name n ∈ (q.inst first).args → q.Unwritten n first id) :
    I.KeepsResults q (q.merge first id) := by
  have hid := hpre.right_mem
  have hmem : ∀ x ∈ (q.merge first id).order, x ∈ q.order := fun x hx => List.mem_of_mem_erase hx
  have hresult : ∀ s : State V, I.result (I.before q s id) (q.inst id) =
      I.result (I.before q s first) (q.inst first) := by
    intro s
    rw [← Interpretation.result_before hq.toValid hpre hf hkept]
    unfold Interpretation.result
    rw [hop, hargs]
  refine .of_replace hq.toValid (hq.merge hpre hf).toValid rfl ht (v := .ref first) ?_ ?_
  · intro x hx
    exact ⟨_, inst_merge hq first hid (hmem x hx)⟩
  · intro s x hx _
    show (I.before q s x).values id = (I.before q s x).values first
    rw [Interpretation.values_before hq.nodup hx,
      Interpretation.values_before hq.nodup (hpre.trans hq.nodup hx), hresult s]

/-- The table stays current when a repeated computation is merged. -/
theorem Current.merge (h : Current rest t q) (hq : q.Consistent) (hid : id ∈ q.order)
    (htracks : ∀ e ∈ t.computed, e.2 ∈ q.order → q.Precedes e.2 id) :
    Current rest t (q.merge first id) := by
  intro e he hlive n hn hown
  obtain ⟨-, hlive'⟩ := hq.nodup.mem_erase_iff.mp hlive
  have hnot : .ref id ∉ (q.inst e.2).args := fun hr =>
    (htracks e he hlive').asymm hq.nodup (hq.refs e.2 hlive' id hr).1
  rw [defines_iff_of_dst hlive' hlive (dst_merge hq hid hlive')] at hown
  rw [inst_merge hq first hid hlive', replace_of_not_mem _ hnot] at hn
  obtain ⟨hnoted, hsince⟩ := h e he hlive' n hn hown
  refine ⟨hnoted, fun y hy hyr hd => ?_⟩
  have hyq : y ∈ q.order := List.mem_of_mem_erase hy.right_mem
  have hd' : q.Defines y n := (defines_iff_of_dst hyq hy.right_mem (dst_merge hq hid hyq)).mp hd
  exact hsince y (List.Sublist.trans hy List.erase_sublist) hyr hd'

/-! ## The walk -/

/-- What holds at every visit of the search. -/
structure Merging (I : Interpretation V) (p : Program) (rest : List InstId) (t : Available)
    (q : Program) : Prop extends I.Walk p rest q where
  writable : q.Writable
  tracks : Tracks rest t q
  sorted : Ahead rest q
  current : Current rest t q

theorem Merging.start (hp : p.Valid) (hw : p.Writable) : Merging I p p.order {} p.analyze where
  toWalk := .start hp
  writable := hw.analyze
  tracks := by simp [Tracks]
  sorted := List.pairwise_iff_forall_sublist.mpr fun hab _ _ => by
    rw [Precedes, order_analyze]
    exact hab
  current := by simp [Current]

/-- An instruction that is gone is passed over. -/
theorem Merging.skip (h : Merging I p (id :: rest) t q) (hid : id ∉ q.order) :
    Merging I p rest t q where
  toWalk := h.toWalk.tail
  writable := h.writable
  tracks := h.tracks.tail
  sorted := (List.pairwise_cons.mp h.sorted).2
  current := h.current.skip hid

/-- An instruction that is not merged is passed by. -/
theorem Merging.pass (h : Merging I p (id :: rest) t q) :
    Merging I p rest (t.passBy (q.inst id)) q where
  toWalk := h.toWalk.tail
  writable := h.writable
  tracks := (h.tracks.passBy _).tail
  sorted := (List.pairwise_cons.mp h.sorted).2
  current := h.current.passBy

/-- A computation that is new is entered. -/
theorem Merging.insert (h : Merging I p (id :: rest) t q) (hn : p.order.Nodup)
    (hid : id ∈ q.order) :
    Merging I p rest ((t.passBy (q.inst id)).insert (q.inst id).key id) q where
  toWalk := h.toWalk.tail
  writable := h.writable
  tracks := (h.tracks.passBy _).insert h.sorted hid
  sorted := (List.pairwise_cons.mp h.sorted).2
  current := h.current.passBy.insert fun _ hy => h.mem_rest hn hy

/-- What the table has for the computation at hand is that computation, done earlier, and no name
that it reads has been written since, except for the one that it writes itself. -/
theorem Merging.found (h : Merging I p (id :: rest) t q) (hn : p.order.Nodup) (hid : id ∈ q.order)
    (hfind : (t.passBy (q.inst id)).find? (q.inst id).key = some first) (hlive : first ∈ q.order) :
    q.Precedes first id ∧ (q.inst first).key = (q.inst id).key ∧
      (q.inst first).op = (q.inst id).op ∧ (q.inst first).args = (q.inst id).args ∧
      ∀ n, .name n ∈ (q.inst first).args → ¬ q.Defines first n → q.Unwritten n first id := by
  have hentry := mem_of_lookup_eq_some hfind
  obtain ⟨hkey, hahead⟩ := h.tracks.passBy (q.inst id) _ hentry hlive
  obtain ⟨hop, hargs⟩ := h.writable.eq_of_key_eq hlive hid hkey
  refine ⟨hahead id (by simp) hid, hkey, hop, hargs, fun n hread hown y _ hfy hyid => ?_⟩
  obtain ⟨-, hsince⟩ := h.current.passBy _ hentry hlive n hread hown
  exact hsince y hfy (h.not_mem_rest hn hyid)

/-- A merge with the entry that the table has for the same computation. -/
theorem Merging.merge (h : Merging I p (id :: rest) t q) (hn : p.order.Nodup)
    (hid : id ∈ q.order) (hfind : (t.passBy (q.inst id)).find? (q.inst id).key = some first)
    (hlive : first ∈ q.order) (ht : (q.inst id).isTemp = true)
    (hf : (q.inst first).isTemp = true) :
    Merging I p rest (t.passBy (q.inst id)) (q.merge first id) := by
  have hq := h.consistent
  have htracks := h.tracks.passBy (q.inst id)
  obtain ⟨hpre, hkey, hop, hargs, hsince⟩ := h.found hn hid hfind hlive
  have hkept : ∀ n, .name n ∈ (q.inst first).args → q.Unwritten n first id := fun n hread =>
    hsince n hread (not_defines_of_isTemp hf)
  have hruns := (keepsResults_merge (I := I) hq hpre hf ht hop hargs hkept).sameRuns hq.nodup
  have hstep : Rewrite (fun _ => False) q (q.merge first id) := .merge hpre hkey hf ht
  have hsorted := (List.pairwise_cons.mp h.sorted).2
  exact {
    toWalk := h.toWalk.step (hq.merge hpre hf) List.erase_sublist hruns
    writable := hstep.writable hq h.writable
    tracks := htracks.merge hq hid
    sorted := Ahead.merge hsorted hq.nodup
    current := h.current.passBy.merge hq hid fun e he hl => (htracks e he hl).2 id (by simp) hid }

/-- Merging repeated computations keeps the runs of a program. -/
theorem walk_duplicates (hp : p.Valid) (hw : p.Writable) :
    I.Walk p [] p.analyze.duplicates := by
  obtain ⟨_, hend⟩ := duplicates_induction (fun rest t q => Merging I p rest t q) (p := p.analyze)
    (fun _ _ _ _ h hid => h.skip hid) (fun _ _ _ _ h hid _ => h.insert hp.nodup hid)
    (fun _ _ _ _ _ h _ _ _ _ => h.pass)
    (fun _ _ _ _ _ h hid hfind hlive ht hf => h.merge hp.nodup hid hfind hlive ht hf)
    (by rw [order_analyze]; exact .start hp hw)
  exact hend.toWalk

end Program

/-- Merging repeated computations in a program that was read and analysed does not fault, and keeps
what every run leaves in the names and what every instruction that stays computes. -/
theorem sameRuns_of_duplicates {V : Type*} {source : Source.Bytes} {w₀ w : Workspace}
    (hload : Source.load source w₀ = .ok (.ok ()) w) (I : Interpretation V) :
    ∃ w', (do analyze; duplicates) w = .ok () w' ∧
      w'.store.program.order.Sublist w.store.program.order ∧
      I.SameRuns w.store.program w'.store.program := by
  have hfresh := (Source.loaded_of_load hload).fresh
  have hclosed := (computes_analyze hfresh.valid.closed).2
  exact (Program.walk_duplicates hfresh.valid hfresh.writable).exists_sameRuns hload
    (computes_apply .duplicates hclosed).1

/-- Two sums before a name is written and two after it, on words: each pair is merged, and what was
computed before the write is not confused with what is computed after it. -/
theorem sameRuns_of_merged_sums :
    let source := "T_0 = add_f(x, y)\nT_1 = add_f(x, y)\nx = add_f(x, T_1)\n" ++
      "T_2 = add_f(x, y)\nT_3 = add_f(x, y)\nz = mul_f(T_2, T_3)\nx = sub_f(T_0, T_3)\n"
    let output := "T_0 = add_f(x, y)\nx = add_f(x, T_0)\nT_2 = add_f(x, y)\n" ++
      "z = mul_f(T_2, T_2)\nx = sub_f(T_0, T_2)\n"
    ∃ w w', Source.load source.toUTF8.toList {} = .ok (.ok ()) w ∧
      (do analyze; duplicates) w = .ok () w' ∧ w'.store.program.listing = output ∧
      Interpretation.words.SameRuns w.store.program w'.store.program := by
  intro source output
  have hruns : ∃ w ∈ after? (Source.load source.toUTF8.toList) {},
      ∃ w' ∈ left? (do analyze; duplicates) w, w'.store.program.listing = output := by
    decide +kernel
  obtain ⟨w, hread, w', hdone, htext⟩ := hruns
  obtain ⟨_, hload⟩ := exists_of_after? hread
  obtain ⟨_, hmerged⟩ := exists_of_left? hdone
  obtain ⟨w'', hrun, -, hsame⟩ := sameRuns_of_duplicates hload Interpretation.words
  rw [hmerged, EStateM.Result.ok.injEq] at hrun
  obtain ⟨-, rfl⟩ := hrun
  exact ⟨w, w', hload, hmerged, htext, hsame⟩

end Straightline
