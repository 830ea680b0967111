import Straightline.Proofs.Merging

/-!
# Which repetitions stay

The search for repeated computations merges temporaries into temporaries only, but instructions with
a named destination enter the table as well, and the table has one entry for an expression. A named
result that comes first therefore hides the temporaries after it (`duplicates_keeps_hidden_pair`).
Nothing else does: two temporaries that are left with the same opcode and operands, without a write
to a name among these in between, come after a named result that the table still has for their
expression (`hidden_of_duplicates`).

The walk carries the reason along (`Program.Searched`). For every temporary behind whose names still
stand, the table has an entry of the same expression, and that is the temporary itself or hides it
(`Program.Covered`). Writes to other names do not strike the entry out, because only what reads a
name is noted as its reader (`Available.Noted`).
-/

set_option autoImplicit false

namespace Straightline

/-! ## The table -/

/-- A filter that keeps all entries of a key keeps what is found under it. -/
theorem lookup_filter_of_forall {κ α : Type} [BEq κ] [LawfulBEq κ] {f : κ × α → Bool} {k : κ}
    {l : List (κ × α)} (h : ∀ e ∈ l, e.1 = k → f e = true) :
    (l.filter f).lookup k = l.lookup k := by
  induction l with
  | nil => rfl
  | cons e l ih =>
      have ih' := ih fun x hx => h x (by simp [hx])
      obtain ⟨k', a⟩ := e
      by_cases hk : k' = k
      · have hkept : f (k', a) = true := h _ (by simp) hk
        rw [List.filter_cons_of_pos hkept, List.lookup_cons, List.lookup_cons, ih']
      · have hne : (k == k') = false := beq_eq_false_iff_ne.mpr (Ne.symm hk)
        rw [List.lookup_cons, hne]
        by_cases hkept : f (k', a) = true
        · rw [List.filter_cons_of_pos hkept, List.lookup_cons, hne, ih']
        · rw [List.filter_cons_of_neg hkept, ih']

namespace Available

variable {t : Available} {i j : Inst} {key n : String} {id : InstId}

/-- Every note comes from an instruction that reads the name. -/
def Noted (t : Available) : Prop :=
  ∀ e ∈ t.readers, ∃ i : Inst, i.Legible ∧ i.key = e.2 ∧ .name e.1 ∈ i.args

/-- Noting the reads of an instruction keeps all notes right. -/
theorem Noted.noteReads (h : t.Noted) (hi : i.Legible) :
    (t.noteReads i.key (namesOf i.args)).Noted := by
  intro e he
  rcases List.mem_append.mp he with he | he
  · obtain ⟨n, hn, rfl⟩ := List.mem_map.mp he
    exact ⟨i, hi, rfl, mem_namesOf.mp hn⟩
  · exact h e he

/-- Passing an instruction keeps all notes right. -/
theorem Noted.passBy (h : t.Noted) (hi : i.Legible) : (t.passBy i).Noted := by
  unfold Available.passBy
  split
  · exact h.noteReads hi
  · exact fun e he => h.noteReads hi e (List.mem_filter.mp he).1

/-- Writing a name strikes out no entry of what does not read it. -/
theorem find?_overwrite (h : (n, key) ∉ t.readers) : (t.overwrite n).find? key = t.find? key := by
  refine lookup_filter_of_forall fun e _ hk => ?_
  have hstale : e.1 ∉ (t.readers.filter (·.1 = n)).map (·.2) := by
    intro hmem
    obtain ⟨⟨m, k⟩, hr, hkey⟩ := List.mem_map.mp hmem
    obtain ⟨hr, hm⟩ := List.mem_filter.mp hr
    have hm' : m = n := by simpa using hm
    have hk' : k = key := hkey.trans hk
    exact h (hm' ▸ hk' ▸ hr)
  simpa using hstale

/-- Passing an instruction does not lose an expression that does not read what it writes. -/
theorem find?_passBy (h : t.Noted) (hi : i.Legible) (hj : j.Legible)
    (hw : i.isTemp = false → .name i.dst ∉ j.args) :
    (t.passBy i).find? j.key = t.find? j.key := by
  unfold Available.passBy
  split
  · rfl
  · rename_i ht
    refine find?_overwrite fun hr => ?_
    obtain ⟨k, hk, hkey, hread⟩ := h.noteReads hi _ hr
    have hargs := (hk.eq_of_key_eq hj hkey).2
    exact hw (by simpa using ht) (hargs ▸ hread)

/-- What is entered is found. -/
theorem find?_insert_self : (t.insert key id).find? key = some id := by
  simp [find?, Available.insert]

/-- Under other keys the same is found. -/
theorem find?_insert_of_ne {key' : String} (h : key ≠ key') :
    (t.insert key' id).find? key = t.find? key := by
  have hne : (key == key') = false := beq_eq_false_iff_ne.mpr h
  simp [find?, Available.insert, List.lookup_cons, hne]

end Available

namespace Program

/-! ## Repeated expressions -/

/-- `a` stands before `b` and has the same opcode and operands. -/
structure Anticipates (p : Program) (a b : InstId) : Prop where
  precedes : p.Precedes a b
  op : (p.inst a).op = (p.inst b).op
  args : (p.inst a).args = (p.inst b).args

/-- Two temporaries with the same opcode and operands, and nothing between them writes a name among
the operands. -/
structure Duplicated (p : Program) (a b : InstId) : Prop extends p.Anticipates a b where
  first : (p.inst a).isTemp = true
  second : (p.inst b).isTemp = true
  kept : ∀ n ∈ namesOf (p.inst a).args, p.Unwritten n a b

/-- A named result has the same opcode and operands as the later `a`, and nothing between them
writes a name among the operands, except for the one that the named result writes itself. -/
structure Hides (p : Program) (c a : InstId) : Prop extends p.Anticipates c a where
  named : (p.inst c).isTemp = false
  kept : ∀ n ∈ namesOf (p.inst c).args, ¬ p.Defines c n → p.Unwritten n c a

instance (p : Program) (a b : InstId) : Decidable (p.Anticipates a b) :=
  decidable_of_iff
    (p.Precedes a b ∧ (p.inst a).op = (p.inst b).op ∧ (p.inst a).args = (p.inst b).args)
    ⟨fun ⟨hpre, hop, hargs⟩ => ⟨hpre, hop, hargs⟩, fun h => ⟨h.precedes, h.op, h.args⟩⟩

instance (p : Program) (a b : InstId) : Decidable (p.Duplicated a b) :=
  decidable_of_iff (p.Anticipates a b ∧ (p.inst a).isTemp = true ∧ (p.inst b).isTemp = true ∧
      ∀ n ∈ namesOf (p.inst a).args, p.Unwritten n a b)
    ⟨fun ⟨hab, ha, hb, hkept⟩ => ⟨hab, ha, hb, hkept⟩,
      fun h => ⟨h.toAnticipates, h.first, h.second, h.kept⟩⟩

instance (p : Program) (c a : InstId) : Decidable (p.Hides c a) :=
  decidable_of_iff (p.Anticipates c a ∧ (p.inst c).isTemp = false ∧
      ∀ n ∈ namesOf (p.inst c).args, ¬ p.Defines c n → p.Unwritten n c a)
    ⟨fun ⟨hca, hc, hkept⟩ => ⟨hca, hc, hkept⟩, fun h => ⟨h.toAnticipates, h.named, h.kept⟩⟩

section Merge

variable {q : Program} {first id a b c : InstId}

/-- A merge keeps opcode and operands of what stands before the merged instruction, since that does
not refer to it. -/
theorem inst_merge_of_precedes (hq : q.Consistent) (first : InstId) (ha : q.Precedes a id) :
    ∃ uses, (q.merge first id).inst a = { q.inst a with uses } := by
  have hnot : .ref id ∉ (q.inst a).args := fun hr =>
    ha.asymm hq.nodup (hq.refs a ha.left_mem id hr).1
  rw [inst_merge hq first ha.right_mem ha.left_mem, replace_of_not_mem _ hnot]
  exact ⟨_, rfl⟩

/-- Merging changes nothing about computations in front of it. -/
theorem anticipates_merge (hq : q.Consistent) (first : InstId) (hb : q.Precedes b id) :
    (q.merge first id).Anticipates a b ↔ q.Anticipates a b := by
  have hpre : (q.merge first id).Precedes a b ↔ q.Precedes a b := by
    refine ⟨fun h => List.Sublist.trans h List.erase_sublist, fun h => ?_⟩
    exact (precedes_remove hq.nodup).mpr
      ⟨h, (h.trans hq.nodup hb).ne hq.nodup, hb.ne hq.nodup⟩
  have hsame : q.Precedes a b → ((q.merge first id).inst a).op = (q.inst a).op ∧
      ((q.merge first id).inst a).args = (q.inst a).args := fun hab => by
    obtain ⟨_, ha⟩ := inst_merge_of_precedes hq first (hab.trans hq.nodup hb)
    rw [ha]
    exact ⟨rfl, rfl⟩
  obtain ⟨_, hb'⟩ := inst_merge_of_precedes hq first hb
  constructor
  · intro h
    have hab := hpre.mp h.precedes
    have hop := h.op
    have hargs := h.args
    rw [(hsame hab).1, hb'] at hop
    rw [(hsame hab).2, hb'] at hargs
    exact ⟨hab, hop, hargs⟩
  · intro h
    obtain ⟨hop, hargs⟩ := hsame h.precedes
    exact ⟨hpre.mpr h.precedes, by rw [hop, hb', h.op], by rw [hargs, hb', h.args]⟩

/-- A temporary writes no name, so a merge changes nothing about what is written in between. -/
theorem unwritten_merge (hq : q.Consistent) (hid : id ∈ q.order) (ht : (q.inst id).isTemp = true)
    (ha : a ≠ id) (hb : b ≠ id) {n : String} :
    (q.merge first id).Unwritten n a b ↔ q.Unwritten n a b := by
  have hmem : ∀ {y}, y ∈ (q.merge first id).order ↔ y ≠ id ∧ y ∈ q.order := hq.nodup.mem_erase_iff
  have hpre : ∀ {x y}, (q.merge first id).Precedes x y ↔ q.Precedes x y ∧ x ≠ id ∧ y ≠ id :=
    precedes_remove hq.nodup
  have hdef : ∀ {y}, y ∈ (q.merge first id).order →
      ((q.merge first id).Defines y n ↔ q.Defines y n) := fun hy =>
    defines_iff_of_dst (hmem.mp hy).2 hy (dst_merge hq hid (hmem.mp hy).2)
  constructor
  · intro h y hy hay hyb
    by_cases hyid : y = id
    · rw [hyid]
      exact not_defines_of_isTemp ht
    · have hy' := hmem.mpr ⟨hyid, hy⟩
      rw [← hdef hy']
      exact h y hy' (hpre.mpr ⟨hay, ha, hyid⟩) (hpre.mpr ⟨hyb, hyid, hb⟩)
  · intro h y hy hay hyb
    rw [hdef hy]
    exact h y (hmem.mp hy).2 (hpre.mp hay).1 (hpre.mp hyb).1

/-- What is repeated after merging was repeated before it. -/
theorem Duplicated.of_merge (h : (q.merge first id).Duplicated a b) (hq : q.Consistent)
    (hb : q.Precedes b id) (ht : (q.inst id).isTemp = true) : q.Duplicated a b := by
  have hab := (anticipates_merge hq first hb).mp h.toAnticipates
  have ha : q.Precedes a id := hab.precedes.trans hq.nodup hb
  obtain ⟨hta, htb, hkept⟩ := And.intro h.first (And.intro h.second h.kept)
  obtain ⟨_, ha'⟩ := inst_merge_of_precedes hq first ha
  obtain ⟨_, hb'⟩ := inst_merge_of_precedes hq first hb
  rw [ha'] at hta hkept
  rw [hb'] at htb
  exact ⟨hab, hta, htb, fun n hn =>
    (unwritten_merge hq hb.right_mem ht (ha.ne hq.nodup) (hb.ne hq.nodup)).mp (hkept n hn)⟩

/-- What hides a computation in front of a merged one hides it still. -/
theorem Hides.merge (h : q.Hides c a) (hq : q.Consistent) (ha : q.Precedes a id)
    (ht : (q.inst id).isTemp = true) : (q.merge first id).Hides c a := by
  have hc : q.Precedes c id := h.precedes.trans hq.nodup ha
  have hca := (anticipates_merge hq first ha).mpr h.toAnticipates
  obtain ⟨_, hc'⟩ := inst_merge_of_precedes hq first hc
  refine ⟨hca, by rw [hc']; exact h.named, fun n hn hown => ?_⟩
  rw [hc'] at hn
  rw [defines_iff_of_dst hc.left_mem hca.precedes.left_mem
    (dst_merge hq ha.right_mem hc.left_mem)] at hown
  exact (unwritten_merge hq ha.right_mem ht (hc.ne hq.nodup) (ha.ne hq.nodup)).mpr
    (h.kept n hn hown)

end Merge

/-! ## The walk -/

variable {V : Type*} {I : Interpretation V} {p q : Program} {t : Available}
  {id first a b : InstId} {rest : List InstId}

/-- The same opcode and operands have the same key. -/
theorem key_eq_of_anticipates (h : q.Anticipates a b) : (q.inst a).key = (q.inst b).key := by
  rw [Inst.key, Inst.key, h.op, h.args]

/-- No name that the instruction reads has been written after it, as far as the walk has come. -/
def Stands (rest : List InstId) (q : Program) (a : InstId) : Prop :=
  ∀ n ∈ namesOf (q.inst a).args, ∀ y, q.Precedes a y → y ∉ rest → ¬ q.Defines y n

/-- The table has an entry for the expression of a temporary: the temporary itself, or a named
result that hides it. -/
def Covered (t : Available) (q : Program) (a : InstId) : Prop :=
  ∃ first, t.find? (q.inst a).key = some first ∧ first ∈ q.order ∧ (first = a ∨ q.Hides first a)

/-- What stands as far as the walk has come stood before. -/
theorem Stands.cons (h : Stands rest q a) : Stands (id :: rest) q a :=
  fun n hn y hy hyr => h n hn y hy fun hm => hyr (List.mem_cons_of_mem id hm)

/-- What holds at every visit of the search: temporaries that still stand are covered, and pairs
that were left have something that hides them. -/
structure Searched (I : Interpretation V) (p : Program) (rest : List InstId) (t : Available)
    (q : Program) : Prop extends Merging I p rest t q where
  noted : t.Noted
  covered : ∀ a ∈ q.order, a ∉ rest → (q.inst a).isTemp = true → Stands rest q a → Covered t q a
  hidden : ∀ a b, b ∉ rest → q.Duplicated a b → ∃ c, q.Hides c a

/-- The live instructions have keys that can be read. -/
theorem Merging.legible (h : Merging I p rest t q) (ha : a ∈ q.order) : (q.inst a).Legible :=
  (h.writable a ha).legible

theorem Searched.start (hp : p.Valid) (hw : p.Writable) :
    Searched I p p.order {} p.analyze where
  toMerging := .start hp hw
  noted := by simp [Available.Noted]
  covered a ha hr := absurd (order_analyze p ▸ ha) hr
  hidden a b hr hdup := absurd (order_analyze p ▸ hdup.precedes.right_mem) hr

/-- An instruction that is gone is passed over. -/
theorem Searched.skip (h : Searched I p (id :: rest) t q) (hid : id ∉ q.order) :
    Searched I p rest t q where
  toMerging := h.toMerging.skip hid
  noted := h.noted
  covered a ha hr ht hstands := by
    have hne : a ≠ id := fun e => hid (e ▸ ha)
    exact h.covered a ha (by simp [hne, hr]) ht hstands.cons
  hidden a b hr hdup := by
    have hne : b ≠ id := fun e => hid (e ▸ hdup.precedes.right_mem)
    exact h.hidden a b (by simp [hne, hr]) hdup

section Visit

variable (h : Searched I p (id :: rest) t q) (hn : p.order.Nodup) (hid : id ∈ q.order)

include h hn hid

/-- The instruction at hand may strike out entries, but not one that still stands. -/
theorem Searched.covered_passBy (ha : a ∈ q.order) (hr : a ∉ id :: rest)
    (ht : (q.inst a).isTemp = true) (hstands : Stands rest q a) :
    Covered (t.passBy (q.inst id)) q a := by
  obtain ⟨first, hfind, hlive, hwhy⟩ := h.covered a ha hr ht hstands.cons
  have hidr : id ∉ rest := (List.nodup_cons.mp (hn.sublist h.ahead.sublist)).1
  refine ⟨first, ?_, hlive, hwhy⟩
  rw [Available.find?_passBy h.noted (h.legible hid) (h.legible ha), hfind]
  intro hnamed hread
  exact hstands _ (mem_namesOf.mpr hread) id (h.precedes_of_not_mem hn hid ha hr) hidr
    ⟨hid, hnamed, rfl⟩

/-- The first temporary of a pair that ends at the instruction at hand is covered. -/
theorem Searched.covered_of_duplicated (hdup : q.Duplicated a id) :
    Covered (t.passBy (q.inst id)) q a := by
  have hpre := hdup.precedes
  have hr : a ∉ id :: rest := by
    simp [hpre.ne h.consistent.nodup, h.not_mem_rest hn hpre]
  refine h.covered_passBy hn hid hpre.left_mem hr hdup.first fun n hread y hay hyr hd => ?_
  by_cases hyid : y = id
  · exact not_defines_of_isTemp hdup.second (hyid ▸ hd)
  · have hyid' := h.precedes_of_not_mem hn hid hd.1 (by simp [hyid, hyr])
    exact hdup.kept n hread y hd.1 hay hyid' hd

/-- An expression that the table has no live entry for is entered. -/
theorem Searched.insert (hfree : ∀ first,
      (t.passBy (q.inst id)).find? (q.inst id).key = some first → first ∉ q.order) :
    Searched I p rest ((t.passBy (q.inst id)).insert (q.inst id).key id) q where
  toMerging := h.toMerging.insert hn hid
  noted := h.noted.passBy (h.legible hid)
  covered a ha hr ht hstands := by
    by_cases haid : a = id
    · rw [haid]
      exact ⟨id, Available.find?_insert_self, hid, .inl rfl⟩
    · obtain ⟨first, hfind, hlive, hwhy⟩ :=
        h.covered_passBy hn hid ha (by simp [haid, hr]) ht hstands
      have hne : (q.inst a).key ≠ (q.inst id).key := fun hkey => hfree first (hkey ▸ hfind) hlive
      exact ⟨first, (Available.find?_insert_of_ne hne).trans hfind, hlive, hwhy⟩
  hidden a b hr hdup := by
    by_cases hbid : b = id
    · subst hbid
      obtain ⟨first, hfind, hlive, -⟩ := h.covered_of_duplicated hn hid hdup
      rw [key_eq_of_anticipates hdup.toAnticipates] at hfind
      exact absurd hlive (hfree first hfind)
    · exact h.hidden a b (by simp [hbid, hr]) hdup

/-- An expression that the table has an entry for is passed by, unless both are temporaries. -/
theorem Searched.pass (hfind : (t.passBy (q.inst id)).find? (q.inst id).key = some first)
    (hlive : first ∈ q.order)
    (htemps : ¬ ((q.inst id).isTemp = true ∧ (q.inst first).isTemp = true)) :
    Searched I p rest (t.passBy (q.inst id)) q where
  toMerging := h.toMerging.pass
  noted := h.noted.passBy (h.legible hid)
  covered a ha hr ht hstands := by
    by_cases haid : a = id
    · subst haid
      have hnamed : (q.inst first).isTemp = false := by simpa [ht] using htemps
      obtain ⟨hpre, -, hop, hargs, hsince⟩ := h.toMerging.found hn hid hfind hlive
      exact ⟨first, hfind, hlive, .inr ⟨⟨hpre, hop, hargs⟩, hnamed,
        fun n hread => hsince n (mem_namesOf.mp hread)⟩⟩
    · exact h.covered_passBy hn hid ha (by simp [haid, hr]) ht hstands
  hidden a b hr hdup := by
    by_cases hbid : b = id
    · subst hbid
      obtain ⟨found, hfound, -, hwhy⟩ := h.covered_of_duplicated hn hid hdup
      rw [key_eq_of_anticipates hdup.toAnticipates, hfind, Option.some.injEq] at hfound
      subst hfound
      rcases hwhy with rfl | hhides
      · exact absurd ⟨hdup.second, hdup.first⟩ htemps
      · exact ⟨_, hhides⟩
    · exact h.hidden a b (by simp [hbid, hr]) hdup

/-- A merge changes nothing about what stands before the merged instruction. -/
theorem Searched.merge (hfind : (t.passBy (q.inst id)).find? (q.inst id).key = some first)
    (hlive : first ∈ q.order) (ht : (q.inst id).isTemp = true)
    (hf : (q.inst first).isTemp = true) :
    Searched I p rest (t.passBy (q.inst id)) (q.merge first id) where
  toMerging := h.toMerging.merge hn hid hfind hlive ht hf
  noted := h.noted.passBy (h.legible hid)
  covered a ha hr hta hstands := by
    have hq := h.consistent
    obtain ⟨haid, haq⟩ := hq.nodup.mem_erase_iff.mp ha
    have hr' : a ∉ id :: rest := by simp [haid, hr]
    have hpre := h.precedes_of_not_mem hn hid haq hr'
    obtain ⟨_, hinst⟩ := inst_merge_of_precedes hq first hpre
    have hstands' : Stands rest q a := by
      intro n hread y hay hyr hd
      have hyid : y ≠ id := by
        rintro rfl
        exact not_defines_of_isTemp ht hd
      have hy : y ∈ (q.merge first id).order := hq.nodup.mem_erase_iff.mpr ⟨hyid, hd.1⟩
      rw [← defines_iff_of_dst hd.1 hy (dst_merge hq hid hd.1)] at hd
      rw [Stands, hinst] at hstands
      exact hstands n hread y ((precedes_remove hq.nodup).mpr ⟨hay, haid, hyid⟩) hyr hd
    rw [hinst] at hta
    obtain ⟨found, hfound, hlive', hwhy⟩ := h.covered_passBy hn hid haq hr' hta hstands'
    have hne : found ≠ id := by
      rcases hwhy with rfl | hhides
      · exact haid
      · exact (hhides.precedes.trans hq.nodup hpre).ne hq.nodup
    refine ⟨found, by rw [hinst]; exact hfound, hq.nodup.mem_erase_iff.mpr ⟨hne, hlive'⟩, ?_⟩
    exact hwhy.imp_right fun hhides => hhides.merge hq hpre ht
  hidden a b hr hdup := by
    have hq := h.consistent
    obtain ⟨hbid, hb⟩ := hq.nodup.mem_erase_iff.mp hdup.precedes.right_mem
    have hr' : b ∉ id :: rest := by simp [hbid, hr]
    have hpre := h.precedes_of_not_mem hn hid hb hr'
    have hdup' := hdup.of_merge hq hpre ht
    obtain ⟨c, hc⟩ := h.hidden a b hr' hdup'
    exact ⟨c, hc.merge hq (hdup'.precedes.trans hq.nodup hpre) ht⟩

end Visit

/-- The search ends with everything covered. -/
theorem exists_searched_duplicates (hp : p.Valid) (hw : p.Writable) :
    ∃ t, Searched I p [] t p.analyze.duplicates :=
  duplicates_induction (fun rest t q => Searched I p rest t q) (p := p.analyze)
    (fun _ _ _ _ h hid => h.skip hid) (fun _ _ _ _ h hid hfree => h.insert hp.nodup hid hfree)
    (fun _ _ _ _ _ h hid hfind hlive htemps => h.pass hp.nodup hid hfind hlive htemps)
    (fun _ _ _ _ _ h hid hfind hlive ht hf => h.merge hp.nodup hid hfind hlive ht hf)
    (by rw [order_analyze]; exact .start hp hw)

end Program

/-- After merging repeated computations in a program that was read and analysed, two temporaries
with the same opcode and operands and no write to a name among these in between are left only where
a named result hides them. -/
theorem hidden_of_duplicates {source : Source.Bytes} {w₀ w : Workspace}
    (hload : Source.load source w₀ = .ok (.ok ()) w) :
    ∃ w', (do analyze; duplicates) w = .ok () w' ∧
      ∀ a b, w'.store.program.Duplicated a b → ∃ c, w'.store.program.Hides c a := by
  have hfresh := (Source.loaded_of_load hload).fresh
  have hclosed := (computes_analyze hfresh.valid.closed).2
  obtain ⟨w', hrun, hprogram⟩ :=
    Interpretation.exists_analyzed_of_load hload (computes_apply .duplicates hclosed).1
  obtain ⟨t, hsearched⟩ := Program.exists_searched_duplicates (I := Interpretation.words)
    hfresh.valid hfresh.writable
  refine ⟨w', hrun, ?_⟩
  rw [hprogram]
  exact fun a b hdup => hsearched.hidden a b (by simp) hdup

/-- A named result whose operand is written before the pair, and a third sum after another write:
the pair is merged, and no repetition is left. -/
theorem hidden_of_merged_pair :
    let source := "n = add_f(x, y)\nx = mul_f(x, n)\nT_0 = add_f(x, y)\nT_1 = add_f(x, y)\n" ++
      "y = sub_f(T_0, T_1)\nT_2 = add_f(x, y)\nz = foo(T_2, T_0)\n"
    let output := "n = add_f(x, y)\nx = mul_f(x, n)\nT_0 = add_f(x, y)\n" ++
      "y = sub_f(T_0, T_0)\nT_2 = add_f(x, y)\nz = foo(T_2, T_0)\n"
    ∃ w w', Source.load source.toUTF8.toList {} = .ok (.ok ()) w ∧
      (do analyze; duplicates) w = .ok () w' ∧ w'.store.program.listing = output ∧
      ∀ a b, ¬ w'.store.program.Duplicated a b := by
  intro source output
  have hruns : ∃ w ∈ after? (Source.load source.toUTF8.toList) {},
      ∃ w' ∈ left? (do analyze; duplicates) w, w'.store.program.listing = output ∧
      ∀ c ∈ w'.store.program.order, ∀ a ∈ w'.store.program.order,
        ¬ w'.store.program.Hides c a := by
    decide +kernel
  obtain ⟨w, hread, w', hdone, htext, hnone⟩ := hruns
  obtain ⟨_, hload⟩ := exists_of_after? hread
  obtain ⟨_, hmerged⟩ := exists_of_left? hdone
  obtain ⟨w'', hrun, hhidden⟩ := hidden_of_duplicates hload
  rw [hmerged, EStateM.Result.ok.injEq] at hrun
  obtain ⟨-, rfl⟩ := hrun
  refine ⟨w, w', hload, hmerged, htext, fun a b hdup => ?_⟩
  obtain ⟨c, hc⟩ := hhidden a b hdup
  exact hnone c hc.precedes.left_mem a hc.precedes.right_mem hc

/-- A named result of the same expression in front: the pair of temporaries is left as it is. -/
theorem duplicates_keeps_hidden_pair :
    let source := "x = add_f(a, b)\nT_0 = add_f(a, b)\nT_1 = add_f(a, b)\ny = mul_f(T_0, T_1)\n"
    ∃ w w', Source.load source.toUTF8.toList {} = .ok (.ok ()) w ∧
      (do analyze; duplicates) w = .ok () w' ∧ w'.store.program.listing = source ∧
      w'.store.program.Duplicated ⟨1⟩ ⟨2⟩ ∧ w'.store.program.Hides ⟨0⟩ ⟨1⟩ := by
  intro source
  have hruns : ∃ w ∈ after? (Source.load source.toUTF8.toList) {},
      ∃ w' ∈ left? (do analyze; duplicates) w, w'.store.program.listing = source ∧
      w'.store.program.Duplicated ⟨1⟩ ⟨2⟩ ∧ w'.store.program.Hides ⟨0⟩ ⟨1⟩ := by
    decide +kernel
  obtain ⟨w, hread, w', hdone, htext, hdup, hhides⟩ := hruns
  obtain ⟨_, hload⟩ := exists_of_after? hread
  obtain ⟨_, hmerged⟩ := exists_of_left? hdone
  exact ⟨w, w', hload, hmerged, htext, hdup, hhides⟩

end Straightline
