import Straightline.Proofs.Tokens

/-!
# Programs read back as they were written

A line of a listing reads as the instruction that it was written for, where the same temporaries are
defined (`Source.Statement.parse_line`). Reading a listing line by line therefore goes through the
stores that the program was built from, and ends in the store of the program: the same slots in the
same order and the same temporaries, also where temporaries are defined again.
-/

set_option autoImplicit false

namespace Straightline

/-! ## Blanks around a text -/

namespace Text

/-- Nothing is dropped in front of a byte of ASCII that is no blank. -/
theorem dropBlanks_of_solid (wide : List (List UInt8)) {a : UInt8} (rest : List UInt8)
    (hb : isAsciiBlank a = false) (ha : a.toNat < 128) :
    dropBlanks wide 0 (a :: rest) = a :: rest := by
  have hlt : a < 0x80 := by
    rw [UInt8.lt_iff_toNat_lt]
    exact ha
  unfold dropBlanks blankTail?
  rw [hb, if_neg (by simp), if_pos hlt]

/-- Blanks of ASCII are dropped. -/
theorem dropBlanks_append (wide : List (List UInt8)) {blanks : List UInt8} (rest : List UInt8)
    (h : ∀ b ∈ blanks, isAsciiBlank b = true) :
    dropBlanks wide 0 (blanks ++ rest) = dropBlanks wide 0 rest := by
  induction blanks with
  | nil => rfl
  | cons b blanks ih =>
      rw [List.cons_append, dropBlanks, blankTail?, if_pos (h b (by simp))]
      exact ih fun x hx => h x (by simp [hx])

/-- Trimming takes the blanks around a text that neither begins nor ends with one. -/
theorem trim_of_solid (before after : List UInt8) {t : List UInt8} {first last : UInt8}
    (hbefore : ∀ b ∈ before, isAsciiBlank b = true) (hafter : ∀ b ∈ after, isAsciiBlank b = true)
    (hfirst : t.head? = some first) (hlast : t.getLast? = some last)
    (hf : first.toNat < 128 ∧ isAsciiBlank first = false)
    (hl : last.toNat < 128 ∧ isAsciiBlank last = false) : trim (before ++ t ++ after) = t := by
  have hleft : trimLeft (before ++ t ++ after) = t ++ after := by
    obtain ⟨rest, rfl⟩ := List.head?_eq_some_iff.mp hfirst
    unfold trimLeft
    rw [List.append_assoc, dropBlanks_append _ _ hbefore, List.cons_append,
      dropBlanks_of_solid _ _ hf.2 hf.1]
  have hright : trimRight (t ++ after) = t := by
    obtain ⟨rest, rfl⟩ := List.getLast?_eq_some_iff.mp hlast
    unfold trimRight
    rw [List.reverse_append, dropBlanks_append _ _ fun b hb => hafter b (List.mem_reverse.mp hb),
      List.reverse_append, List.reverse_singleton, List.singleton_append,
      dropBlanks_of_solid _ _ hl.2 hl.1, List.reverse_cons, List.reverse_reverse]
  rw [trim, hleft, hright]

end Text

namespace Source

/-- Trimming takes blanks of ASCII from around a token. -/
theorem Token.trim {t : Bytes} (h : Token t) (before after : Bytes)
    (hbefore : ∀ b ∈ before, Text.isAsciiBlank b = true)
    (hafter : ∀ b ∈ after, Text.isAsciiBlank b = true) :
    Text.trim (before ++ t ++ after) = t := by
  obtain ⟨first, hfirst⟩ : ∃ b, t.head? = some b := ⟨_, List.head?_eq_some_head h.nonempty⟩
  obtain ⟨last, hlast⟩ : ∃ b, t.getLast? = some b := ⟨_, List.getLast?_eq_some_getLast h.nonempty⟩
  have hf := tokenByte_ne first (h.bytes first (List.mem_of_mem_head? hfirst))
  have hl := tokenByte_ne last (h.bytes last (List.mem_of_getLast? hlast))
  exact Text.trim_of_solid before after hbefore hafter hfirst hlast ⟨hf.1, hf.2.1⟩ ⟨hl.1, hl.2.1⟩

/-! ## Lines -/

/-- The operands of a line. -/
def operandBytes (tokens : List Bytes) : Bytes := [','.toUInt8, ' '.toUInt8].intercalate tokens

/-- What stands right of the `=` of a line. -/
def callBytes (op : Bytes) (tokens : List Bytes) : Bytes :=
  op ++ '('.toUInt8 :: (operandBytes tokens ++ [')'.toUInt8])

/-- A line without its line feed. -/
def lineBytes (dst op : Bytes) (tokens : List Bytes) : Bytes :=
  dst ++ [' '.toUInt8] ++ '='.toUInt8 :: ([' '.toUInt8] ++ callBytes op tokens)

/-- The operands of a line hold commas, blanks and what tokens hold. -/
theorem mem_operandBytes {tokens : List Bytes} {b : UInt8} (h : b ∈ operandBytes tokens) :
    b = ','.toUInt8 ∨ b = ' '.toUInt8 ∨ ∃ t ∈ tokens, b ∈ t := by
  induction tokens with
  | nil => simp [operandBytes] at h
  | cons t tokens ih =>
      cases tokens with
      | nil => exact .inr (.inr ⟨t, by simp, by simpa [operandBytes] using h⟩)
      | cons u tokens =>
          unfold operandBytes at h ih
          rw [List.intercalate_cons_cons] at h
          rcases List.mem_append.mp h with h | h
          · rcases List.mem_append.mp h with h | h
            · exact .inr (.inr ⟨t, by simp, h⟩)
            · rcases List.mem_cons.mp h with rfl | h
              · exact .inl rfl
              · exact .inr (.inl (List.mem_singleton.mp h))
          · rcases ih h with h | h | ⟨x, hx, hb⟩
            · exact .inl h
            · exact .inr (.inl h)
            · exact .inr (.inr ⟨x, by simp [hx], hb⟩)

/-- The operands of a line hold no separators but commas. -/
theorem not_mem_operandBytes {tokens : List Bytes} (h : ∀ t ∈ tokens, Token t) {b : UInt8}
    (hb : b ∈ separators) (hcomma : b ≠ ','.toUInt8) : b ∉ operandBytes tokens := by
  intro hm
  rcases mem_operandBytes hm with rfl | rfl | ⟨t, ht, hbt⟩
  · exact hcomma rfl
  · exact absurd hb (by decide)
  · exact (h t ht).not_mem hb hbt

/-- Between commas stand the tokens, all but the first after a blank. -/
theorem splitOn_operandBytes (t : Bytes) (tokens : List Bytes) (h : ∀ u ∈ t :: tokens, Token u) :
    (operandBytes (t :: tokens)).splitOn ','.toUInt8 = t :: tokens.map ([' '.toUInt8] ++ ·) := by
  have hsep : ∀ u, Token u → ','.toUInt8 ∉ u := fun u hu => hu.not_mem (by decide)
  have key : ∀ (tokens : List Bytes) (front : Bytes), (∀ u ∈ tokens, Token u) →
      ','.toUInt8 ∉ front → (operandBytes (front :: tokens)).splitOn ','.toUInt8 =
        front :: tokens.map ([' '.toUInt8] ++ ·) := by
    intro tokens
    induction tokens with
    | nil =>
        intro front _ hfront
        rw [operandBytes, List.intercalate_singleton, List.splitOn_eq_singleton hfront]
        rfl
    | cons u tokens ih =>
        intro front hall hfront
        have hback : operandBytes (front :: u :: tokens) =
            front ++ ','.toUInt8 :: operandBytes (([' '.toUInt8] ++ u) :: tokens) := by
          unfold operandBytes
          rw [List.intercalate_cons_cons, List.singleton_append, List.intercalate_cons_cons_left]
          simp
        rw [hback, List.splitOn_append_cons_self_of_not_mem hfront, ih, List.map_cons]
        · exact fun x hx => hall x (by simp [hx])
        · rw [List.singleton_append, List.mem_cons, not_or]
          exact ⟨by decide, hsep u (hall u (by simp))⟩
  exact key tokens t (fun u hu => h u (by simp [hu])) (hsep t (h t (by simp)))

/-- Trimming gives back the tokens. -/
theorem parseOperands_operandBytes {temps : List (String × InstId)} {tokens : List Bytes}
    {args : List Value} (hne : tokens ≠ []) (h : ∀ t ∈ tokens, Token t)
    (hargs : tokens.mapM (parseOperand temps) = .ok args) :
    parseOperands temps ((operandBytes tokens).splitOn ','.toUInt8) = .ok args := by
  cases tokens with
  | nil => exact absurd rfl hne
  | cons t tokens =>
      have htrim : ∀ u ∈ t :: tokens, Text.trim u = u := by
        intro u hu
        have := (h u hu).trim [] [] (by simp) (by simp)
        simpa using this
      have hpad : ∀ u ∈ t :: tokens, Text.trim ([' '.toUInt8] ++ u) = u := by
        intro u hu
        have := (h u hu).trim [' '.toUInt8] [] (forall_mem_of_all (by decide)) (by simp)
        rwa [List.append_nil] at this
      have hmap : (t :: tokens.map ([' '.toUInt8] ++ ·)).map Text.trim = t :: tokens := by
        rw [List.map_cons, List.map_map, htrim t (by simp)]
        congr 1
        exact (List.map_congr_left fun u hu => hpad u (by simp [hu])).trans (List.map_id' _)
      rw [splitOn_operandBytes t tokens h, parseOperands, ← hargs, ← hmap, List.mapM_map]
      rfl

/-- The operands of a line are found in front of the closing parenthesis. -/
theorem operandText?_operandBytes {tokens : List Bytes} (h : ∀ t ∈ tokens, Token t) :
    operandText? (operandBytes tokens ++ [')'.toUInt8]) = some (operandBytes tokens) := by
  have hcount : (operandBytes tokens).count ')'.toUInt8 = 0 :=
    List.count_eq_zero.mpr (not_mem_operandBytes h (by decide) (by decide))
  unfold operandText?
  rw [List.count_append, hcount, if_pos ⟨by decide, by simp⟩, List.dropLast_concat]

section Line

variable {dst op : Bytes} {tokens : List Bytes} (hdst : Token dst) (hop : Token op)
  (h : ∀ t ∈ tokens, Token t)

include hop

/-- A call neither begins nor ends with a blank. -/
theorem trim_callBytes :
    Text.trim ([' '.toUInt8] ++ callBytes op tokens) = callBytes op tokens := by
  obtain ⟨first, hfirst⟩ : ∃ b, op.head? = some b := ⟨_, List.head?_eq_some_head hop.nonempty⟩
  have hf := tokenByte_ne first (hop.bytes first (List.mem_of_mem_head? hfirst))
  have hhead : (callBytes op tokens).head? = some first := by
    rw [callBytes, List.head?_append, hfirst]
    rfl
  have hlast : (callBytes op tokens).getLast? = some ')'.toUInt8 := by
    rw [callBytes, ← List.cons_append, ← List.append_assoc, List.getLast?_concat]
  have htrim := Text.trim_of_solid [' '.toUInt8] [] (forall_mem_of_all (by decide)) (by simp) hhead
    hlast ⟨hf.1, hf.2.1⟩ (by decide)
  rwa [List.append_nil] at htrim

include h

/-- Of the separators, a call holds parentheses and commas only. -/
theorem not_mem_callBytes {b : UInt8} (hb : b ∈ separators)
    (hother : b ∉ ['('.toUInt8, ')'.toUInt8, ','.toUInt8]) : b ∉ callBytes op tokens := by
  simp only [List.mem_cons, List.mem_nil_iff, or_false, not_or] at hother
  simp only [callBytes, List.mem_append, List.mem_cons, List.mem_nil_iff, or_false, not_or]
  exact ⟨hop.not_mem hb, hother.1, not_mem_operandBytes h hb hother.2.2, hother.2.1⟩

/-- A written call splits at its one opening parenthesis. -/
theorem splitOn_callBytes :
    (callBytes op tokens).splitOn '('.toUInt8 = [op, operandBytes tokens ++ [')'.toUInt8]] := by
  have hlist : '('.toUInt8 ∉ operandBytes tokens ++ [')'.toUInt8] := by
    rw [List.mem_append, not_or]
    exact ⟨not_mem_operandBytes h (by decide) (by decide), by decide⟩
  rw [callBytes, List.splitOn_append_cons_self_of_not_mem (hop.not_mem (by decide)),
    List.splitOn_eq_singleton hlist]

include hdst

/-- A written line splits at its one equals sign. -/
theorem splitOn_lineBytes : (lineBytes dst op tokens).splitOn '='.toUInt8 =
    [dst ++ [' '.toUInt8], [' '.toUInt8] ++ callBytes op tokens] := by
  have hleft : '='.toUInt8 ∉ dst ++ [' '.toUInt8] := by
    rw [List.mem_append, not_or]
    exact ⟨hdst.not_mem (by decide), by decide⟩
  have hright : '='.toUInt8 ∉ [' '.toUInt8] ++ callBytes op tokens := by
    rw [List.mem_append, not_or]
    exact ⟨by decide, not_mem_callBytes hop h (by decide) (by decide)⟩
  rw [lineBytes, List.splitOn_append_cons_self_of_not_mem hleft, List.splitOn_eq_singleton hright]

/-- No line feed stands in a line, and no carriage return at its end. -/
theorem lineBytes_ends : '\n'.toUInt8 ∉ lineBytes dst op tokens ∧
    dropReturn (lineBytes dst op tokens) = lineBytes dst op tokens := by
  constructor
  · simp only [lineBytes, List.mem_append, List.mem_cons, List.mem_nil_iff, or_false, not_or]
    exact ⟨⟨hdst.not_mem (by decide), by decide⟩, by decide, by decide,
      not_mem_callBytes hop h (by decide) (by decide)⟩
  · have hlast : (lineBytes dst op tokens).getLast? = some ')'.toUInt8 := by
      simp only [lineBytes, callBytes, ← List.cons_append, ← List.append_assoc,
        List.getLast?_concat]
    unfold dropReturn
    rw [hlast, if_neg (by decide)]

end Line

/-- A line of tokens reads as the instruction that the tokens read as. -/
theorem parseStatement_lineBytes {temps : List (String × InstId)} {dst op : Bytes}
    {tokens : List Bytes} {args : List Value} (hdst : isIdent dst = true) (hop : isIdent op = true)
    (hne : tokens ≠ []) (h : ∀ t ∈ tokens, Token t)
    (hargs : tokens.mapM (parseOperand temps) = .ok args) :
    parseStatement temps (lineBytes dst op tokens) =
      .ok { dst := toText dst, op := toText op, args } := by
  have htdst := token_of_isIdent hdst
  have htop := token_of_isIdent hop
  have hleft : Text.trim (dst ++ [' '.toUInt8]) = dst :=
    htdst.trim [] [' '.toUInt8] (by simp) (forall_mem_of_all (by decide))
  have hcallee : Text.trim op = op := by
    have := htop.trim [] [] (by simp) (by simp)
    simpa using this
  unfold parseStatement
  simp only [splitOn_lineBytes htdst htop h, trim_callBytes htop, splitOn_callBytes htop h,
    operandText?_operandBytes h, hleft, hcallee, hdst, hop, Bool.not_true, Bool.false_eq_true,
    if_false, parseOperands_operandBytes hne h hargs]

/-! ## Listings -/

/-- The bytes of joined operands are the joined bytes. -/
theorem ofText_intercalate (texts : List String) :
    ofText (", ".intercalate texts) = operandBytes (texts.map ofText) := by
  have hcomma : ofText ", " = [','.toUInt8, ' '.toUInt8] := by decide
  unfold operandBytes
  induction texts with
  | nil =>
      rw [String.intercalate_nil]
      rfl
  | cons s texts ih =>
      cases texts with
      | nil => rw [String.intercalate_singleton, List.map_singleton, List.intercalate_singleton]
      | cons t texts =>
          rw [String.intercalate_cons_cons, ofText_append, ofText_append, hcomma, ih, List.map_cons,
            List.map_cons, List.map_cons, List.intercalate_cons_cons, List.append_assoc]

/-- The bytes of a line are those of its parts. -/
theorem ofText_lineText (p : Program) (id : InstId) : ofText (p.lineText id) =
    lineBytes (ofText (p.inst id).dst) (ofText (p.inst id).op)
      ((p.inst id).args.map fun v => ofText (p.operandText v)) ++ ['\n'.toUInt8] := by
  have hassign : ofText " = " = [' '.toUInt8, '='.toUInt8, ' '.toUInt8] := by decide
  have hopen : ofText "(" = ['('.toUInt8] := by decide
  have hclose : ofText ")\n" = [')'.toUInt8, '\n'.toUInt8] := by decide
  unfold Program.lineText lineBytes callBytes
  simp only [ofText_append, hassign, hopen, hclose, ofText_intercalate, List.map_map]
  simp [Function.comp_def]

/-- The lines of a text whose lines all end in a line feed. -/
theorem lines_flatMap {ls : List Bytes} (h : ∀ l ∈ ls, '\n'.toUInt8 ∉ l) :
    lines (ls.flatMap (· ++ ['\n'.toUInt8])) = ls := by
  have hsplit : (ls.flatMap (· ++ ['\n'.toUInt8])).splitOn '\n'.toUInt8 = ls ++ [[]] := by
    induction ls with
    | nil => rfl
    | cons l ls ih =>
        rw [List.flatMap_cons, List.append_assoc, List.singleton_append,
          List.splitOn_append_cons_self_of_not_mem (h l (by simp)),
          ih fun x hx => h x (by simp [hx])]
        rfl
  unfold lines
  dsimp only
  rw [hsplit, List.getLast?_concat, if_pos rfl, List.dropLast_concat]

/-- A line reads as the instruction that it was written for, where the temporaries mean what they
meant to the instruction. -/
theorem Statement.parse_line {temps : List (String × InstId)} {i : Inst} (h : Statement temps i)
    {p : Program} (hnames : ∀ s id, temps.lookup s = some id → (p.inst id).dst = s) :
    ∃ line, line = lineBytes (ofText i.dst) (ofText i.op)
        (i.args.map fun v => ofText (p.operandText v)) ∧
      '\n'.toUInt8 ∉ line ∧ dropReturn line = line ∧ parseStatement temps line = .ok i := by
  obtain ⟨hdst, hdst'⟩ := h.dst.ofText
  obtain ⟨hop, hop'⟩ := h.op.ofText
  have htokens : ∀ t ∈ i.args.map fun v => ofText (p.operandText v), Token t := by
    intro t ht
    obtain ⟨v, hv, rfl⟩ := List.mem_map.mp ht
    exact ((h.args v hv).ofText hnames).1
  have hargs : (i.args.map fun v => ofText (p.operandText v)).mapM (parseOperand temps) =
      .ok i.args := by
    have key : ∀ args : List Value, (∀ v ∈ args, Operand temps v) →
        args.mapM (fun v => parseOperand temps (ofText (p.operandText v))) = .ok args := by
      intro args
      induction args with
      | nil => exact fun _ => rfl
      | cons v args ih =>
          intro hall
          rw [List.mapM_cons, ((hall v (by simp)).ofText hnames).2,
            ih fun x hx => hall x (by simp [hx])]
          rfl
    rw [List.mapM_map]
    exact key i.args h.args
  have hends := lineBytes_ends (token_of_isIdent hdst) (token_of_isIdent hop) htokens
  refine ⟨_, rfl, hends.1, hends.2, ?_⟩
  rw [parseStatement_lineBytes hdst hop (by simp [h.nonempty]) htokens hargs, hdst', hop', ← h.uses]

/-- Reading goes on after a line that was read. -/
theorem readLines_cons {w : Workspace} (hw : w.store.Loaded) {line : Bytes} {i : Inst}
    (number : Nat) (rest : List Bytes) (hshort : line.length < lineLimit)
    (hreturn : dropReturn line = line) (hparse : parseStatement w.store.temps line = .ok i) :
    ∃ w', readLines number (line :: rest) w = readLines (number + 1) rest w' ∧
      w'.store = w.store.add i := by
  obtain ⟨w', hread, hstore⟩ := readLine_of_parse hw number hparse
  refine ⟨w', ?_, hstore⟩
  rw [readLines, if_neg (Nat.not_le.mpr hshort), hreturn]
  exact bind_of_ok hread

end Source

namespace Program

/-- One more instruction is one more line. -/
theorem listing_append {p : Program} (hp : p.Valid) (i : Inst) :
    (p.append i).listing = p.listing ++ (p.append i).lineText p.nextId := by
  have hold : ∀ id ∈ p.order, (p.append i).lineText id = p.lineText id := by
    intro id hid
    have hinst := inst_append_of_known i (hp.known id hid)
    have hargs : ((p.inst id).args.map (p.append i).operandText) =
        (p.inst id).args.map p.operandText := by
      refine List.map_congr_left fun v hv => ?_
      cases v with
      | literal l => rfl
      | name s => rfl
      | ref r =>
          have hr := (hp.refs id hid r hv).1.left_mem
          exact congrArg Inst.dst (inst_append_of_known i (hp.known r hr))
    unfold lineText
    rw [hinst, hargs]
  unfold listing
  rw [order_append, List.foldl_append]
  have hsame := List.foldl_ext (fun text id => text ++ (p.append i).lineText id)
    (fun text id => text ++ p.lineText id) "" (l := p.order) fun text id hid => by rw [hold id hid]
  rw [hsame]
  rfl

end Program

namespace Store

open Source

/-- The program of a loaded store is written in lines that lead back to the store. -/
theorem Loaded.listing {s : Store} (h : s.Loaded) : ∃ p ls, s.Fresh p ∧
    ofText p.listing = ls.flatMap (· ++ ['\n'.toUInt8]) ∧ (∀ l ∈ ls, '\n'.toUInt8 ∉ l) ∧
    ((∀ l ∈ ls, l.length < lineLimit) → ∀ number rest w, w.store = {} →
      ∃ w', readLines number (ls ++ rest) w = readLines (number + ls.length) rest w' ∧
        w'.store = s) := by
  induction h with
  | empty =>
      have hfresh := Loaded.empty.fresh
      refine ⟨_, [], hfresh, ?_, by simp, fun _ number rest w hw => ⟨w, rfl, hw⟩⟩
      rw [holds_empty.program_eq]
      rfl
  | @add s i hs hi ih =>
      obtain ⟨p, ls, hfresh, htext, hfeeds, hread⟩ := ih
      have hnames : ∀ t id, s.temps.lookup t = some id → ((p.append i).inst id).dst = t := by
        intro t id hl
        obtain ⟨hlive, hdst, -⟩ := hfresh.temps _ (mem_of_lookup_eq_some hl)
        rw [Program.inst_append_of_known i (hfresh.valid.known _ hlive)]
        exact hdst
      obtain ⟨line, hline, hfeed, hreturn, hparse⟩ := hi.parse_line hnames
      refine ⟨p.append i, ls ++ [line], hfresh.add hi, ?_, ?_, ?_⟩
      · have hnew := ofText_lineText (p.append i) p.nextId
        rw [Program.inst_append_new, ← hline] at hnew
        rw [Program.listing_append hfresh.valid, ofText_append, htext, hnew, List.flatMap_append,
          List.flatMap_singleton]
      · intro l hl
        rcases List.mem_append.mp hl with hl | hl
        · exact hfeeds l hl
        · exact List.mem_singleton.mp hl ▸ hfeed
      · intro hshort number rest w hw
        obtain ⟨w₁, hread₁, hstore₁⟩ :=
          hread (fun l hl => hshort l (by simp [hl])) number (line :: rest) w hw
        rw [← hstore₁] at hs hparse
        obtain ⟨w₂, hread₂, hstore₂⟩ :=
          readLines_cons hs (number + ls.length) rest (hshort line (by simp)) hreturn hparse
        refine ⟨w₂, ?_, hstore₁ ▸ hstore₂⟩
        rw [List.append_assoc, List.singleton_append, hread₁, hread₂, List.length_append]
        rfl

/-- The listing of a loaded store can be read if its lines are not too long, and leads back to the
store. -/
theorem Loaded.load_listing {s : Store} (h : s.Loaded)
    (hshort : ∀ line ∈ lines (ofText s.program.listing), line.length < lineLimit) (w : Workspace) :
    ∃ w', load (ofText s.program.listing) w = .ok (.ok ()) w' ∧ w'.store = s := by
  obtain ⟨p, ls, hfresh, htext, hfeeds, hread⟩ := h.listing
  rw [hfresh.holds.program_eq] at hshort ⊢
  rw [htext, lines_flatMap hfeeds] at hshort
  obtain ⟨w', hlines, hstore⟩ := hread hshort 1 [] { w with store := {} } rfl
  refine ⟨w', ?_, hstore⟩
  rw [List.append_nil] at hlines
  have hprogram : readProgram (ofText p.listing) { w with store := {} } = .ok (.ok ()) w' := by
    rw [readProgram, htext, lines_flatMap hfeeds, hlines]
    rfl
  unfold load
  simp only [bind, EStateM.bind, run_get, run_modifyStore, hprogram]
  rfl

/-- No live instruction has a float literal among its operands. -/
def FloatFree (s : Store) : Prop :=
  ∀ id slot, s.slot? id = some slot → slot.live = true → slot.inst.FloatFree

/-- A store has no floats exactly if the program that it holds has none. -/
theorem Holds.floatFree_iff {s : Store} {p : Program} (h : s.Holds p) :
    s.FloatFree ↔ p.FloatFree := by
  constructor
  · intro hs id hid
    obtain ⟨slot, hslot, hi, -⟩ := h.slot_of_mem hid
    have := hs id slot hslot ((h.live id slot hslot).mpr hid)
    rwa [hi] at this
  · intro hp id slot hslot hlive
    have := hp id ((h.live id slot hslot).mp hlive)
    rwa [← h.inst_of_slot hslot] at this

end Store

namespace Source

/-- A program that was read has a listing. If its lines are not too long, the listing can be read,
and gives the same store again: the same instructions under the same identities in the same order,
and the same meaning of every temporary. For the target the program is written exactly if it has no
float literal, and then the text is the listing. -/
theorem listing_reads_back {source : Bytes} {w₀ w : Workspace}
    (hload : load source w₀ = .ok (.ok ()) w) :
    ∃ text w₁, listing w = .ok text w₁ ∧
      ((∀ line ∈ lines (ofText text), line.length < lineLimit) →
        ∀ w₂, ∃ w₃, load (ofText text) w₂ = .ok (.ok ()) w₃ ∧ w₃.store = w.store) ∧
      ∃ r w₄, emit w = .ok r w₄ ∧ ((∃ out, r = .ok out) ↔ w.store.FloatFree) ∧
        ∀ out, r = .ok out → out = text := by
  obtain ⟨r₁, w', hl, hloaded, -⟩ := load_eq source w₀
  rw [hload, EStateM.Result.ok.injEq] at hl
  obtain ⟨rfl, rfl⟩ := hl
  have hfresh := (hloaded rfl).fresh
  have hclosed := hfresh.valid.closed
  obtain ⟨w₁, hlisting, -⟩ := computes_listing hclosed w hfresh.holds
  obtain ⟨w₄, hemit, -⟩ := computes_emit hclosed w hfresh.holds
  refine ⟨_, w₁, hlisting, (hloaded rfl).load_listing, _, w₄, hemit, ?_, ?_⟩
  · rw [hfresh.holds.floatFree_iff]
    constructor
    · rintro ⟨out, hout⟩
      exact ((Program.emit_eq_ok_iff _ out).mp hout).1
    · intro hfree
      exact ⟨_, Program.emit_of_floatFree hfree⟩
  · intro out hout
    exact ((Program.emit_eq_ok_iff _ out).mp hout).2

/-- A temporary that is defined twice, numbers in unusual spellings, and blanks. -/
theorem listing_of_redefined_reads_back :
    let source := "T_a =mul_f( x ,0x1.8p1)\nT_a\t= add_f(T_a,1_0e-1)  \r\nz = sub_i (T_a, 007)"
    ∃ w text w₁, load source.toUTF8.toList {} = .ok (.ok ()) w ∧ listing w = .ok text w₁ ∧
      text = "T_a = mul_f(x, 3.0)\nT_a = add_f(T_a, 1.0)\nz = sub_i(T_a, 7)\n" ∧
      ∀ w₂, ∃ w₃, load (ofText text) w₂ = .ok (.ok ()) w₃ ∧ w₃.store = w.store := by
  intro source
  have hread : succeeds (load source.toUTF8.toList) {} = true := by decide +kernel
  obtain ⟨_, w, hload⟩ := exists_of_succeeds hread
  obtain ⟨text, w₁, hlisting, hback, -⟩ := listing_reads_back hload
  have htext : (match (do let _ ← load source.toUTF8.toList; listing : Action String) {} with
      | .ok text _ => text
      | .error _ _ => "") =
      "T_a = mul_f(x, 3.0)\nT_a = add_f(T_a, 1.0)\nz = sub_i(T_a, 7)\n" := by decide +kernel
  rw [bind_of_ok hload, hlisting] at htext
  dsimp only at htext
  refine ⟨w, text, w₁, hload, hlisting, htext, hback ?_⟩
  rw [htext]
  decide +kernel

end Source

end Straightline
