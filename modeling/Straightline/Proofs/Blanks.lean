import Straightline.Proofs.RoundTrip

/-!
# White space around a text

Trimming works on bytes and from both ends. What it takes off are the encodings of white space
characters, and it takes off all of them (`Text.exists_of_trim`, `Text.trim_of_spaces`). No encoding
of a white space character is the beginning of another one, nor the end, so it does not matter that
the bytes at the end of a text are looked at in reverse.
-/

set_option autoImplicit false

namespace Straightline.Text

/-- The white space characters of Unicode. -/
def whiteSpace : List Char :=
  ['\t', '\n', '\x0b', '\x0c', '\r', ' ', '\u0085', '\u00a0', '\u1680', '\u2000', '\u2001',
    '\u2002', '\u2003', '\u2004', '\u2005', '\u2006', '\u2007', '\u2008', '\u2009', '\u200a',
    '\u2028', '\u2029', '\u202f', '\u205f', '\u3000']

/-- A run of white space. -/
def Spaces (bytes : List UInt8) : Prop :=
  ∃ s : String, (∀ c ∈ s.toList, c ∈ whiteSpace) ∧ Source.ofText s = bytes

/-! ## Blanks, one by one -/

/-- One blank of ASCII or of the given wider ones. -/
def isBlank (wide : List (List UInt8)) (bytes : List UInt8) : Bool :=
  wide.contains bytes || (bytes.length = 1 && bytes.all isAsciiBlank)

theorem isBlank_iff {wide : List (List UInt8)} {bytes : List UInt8} :
    isBlank wide bytes = true ↔ bytes ∈ wide ∨ ∃ a, bytes = [a] ∧ isAsciiBlank a = true := by
  simp only [isBlank, Bool.or_eq_true, List.contains_iff_mem, Bool.and_eq_true, decide_eq_true_eq,
    List.length_eq_one_iff]
  refine or_congr_right ⟨?_, ?_⟩
  · rintro ⟨⟨a, rfl⟩, hall⟩
    exact ⟨a, rfl, by simpa using hall⟩
  · rintro ⟨a, rfl, ha⟩
    exact ⟨⟨a, rfl⟩, by simpa using ha⟩

/-- One blank after the other. -/
inductive Blanks (wide : List (List UInt8)) : List UInt8 → Prop where
  | nil : Blanks wide []
  | cons {b bytes : List UInt8} (hb : isBlank wide b = true) (h : Blanks wide bytes) :
      Blanks wide (b ++ bytes)

/-- The wider blanks are told apart from ASCII by their first byte, and none of them begins with
another one. -/
structure Distinct (wide : List (List UInt8)) : Prop where
  head : ∀ w ∈ wide, ∃ a rest, w = a :: rest ∧ ¬ a < 0x80
  prefixFree : ∀ w ∈ wide, ∀ v ∈ wide, w <+: v → w = v

theorem distinct_of_checks {wide : List (List UInt8)}
    (hhead : (wide.all fun w => w.head?.any (0x80 ≤ ·)) = true)
    (hfree : (wide.all fun w => wide.all fun v => !w.isPrefixOf v || w == v) = true) :
    Distinct wide := by
  constructor
  · intro w hw
    have h := List.all_eq_true.mp hhead w hw
    cases w with
    | nil => cases h
    | cons a rest => exact ⟨a, rest, rfl, UInt8.not_lt.mpr (by simpa using h)⟩
  · intro w hw v hv hwv
    have h := List.all_eq_true.mp (List.all_eq_true.mp hfree w hw) v hv
    rw [List.isPrefixOf_iff_prefix.mpr hwv] at h
    simpa using h

theorem distinct_wideBlanks : Distinct wideBlanks := distinct_of_checks (by decide) (by decide)

theorem distinct_reversed : Distinct (wideBlanks.map List.reverse) :=
  distinct_of_checks (by decide) (by decide)

theorem lt_of_isAsciiBlank {a : UInt8} (h : isAsciiBlank a = true) : a < 0x80 := by
  have hall : ∀ a, isAsciiBlank a = true → a < 0x80 := Source.forall_byte (by decide +kernel)
  exact hall a h

/-- Bytes that belong to a blank already found are passed over. -/
theorem dropBlanks_skip (wide : List (List UInt8)) (n : Nat) (bytes : List UInt8) :
    dropBlanks wide n bytes = dropBlanks wide 0 (bytes.drop n) := by
  induction n generalizing bytes with
  | zero => rfl
  | succ n ih =>
      cases bytes with
      | nil => simp [dropBlanks]
      | cons a rest => rw [dropBlanks, ih, List.drop_succ_cons]

section Dropping

variable {wide : List (List UInt8)} (hwide : Distinct wide)

include hwide

/-- A blank that is found at the beginning is one. -/
theorem exists_of_blankTail? {a : UInt8} {rest : List UInt8} {n : Nat}
    (h : blankTail? wide a rest = some n) :
    ∃ b, isBlank wide b = true ∧ a :: rest = b ++ rest.drop n := by
  unfold blankTail? at h
  split at h
  · next ha =>
      obtain rfl := Option.some.inj h
      exact ⟨[a], by simp [isBlank, ha], by simp⟩
  · split at h
    · cases h
    · obtain ⟨w, hfind, rfl⟩ := Option.map_eq_some_iff.mp h
      have hw := List.mem_of_find?_eq_some hfind
      have hfound := List.find?_some hfind
      have hprefix : w <+: a :: rest := List.isPrefixOf_iff_prefix.mp hfound
      obtain ⟨c, tail, rfl, -⟩ := hwide.head w hw
      obtain ⟨more, hmore⟩ := hprefix
      obtain ⟨rfl, rfl⟩ := List.cons.inj hmore
      exact ⟨c :: tail, by simp [isBlank, hw], by simp⟩

/-- What is dropped are blanks. -/
theorem exists_of_dropBlanks (bytes : List UInt8) :
    ∃ blanks, Blanks wide blanks ∧ bytes = blanks ++ dropBlanks wide 0 bytes := by
  induction hn : bytes.length using Nat.strongRecOn generalizing bytes with
  | ind n ih =>
      cases bytes with
      | nil => exact ⟨[], .nil, rfl⟩
      | cons a rest =>
          cases htail : blankTail? wide a rest with
          | none => exact ⟨[], .nil, by simp [dropBlanks, htail]⟩
          | some k =>
              obtain ⟨b, hb, hsplit⟩ := exists_of_blankTail? hwide htail
              have hshort : (rest.drop k).length < n := by
                rw [← hn, List.length_drop, List.length_cons]
                omega
              obtain ⟨blanks, hblanks, hrest⟩ := ih _ hshort (rest.drop k) rfl
              refine ⟨b ++ blanks, .cons hb hblanks, ?_⟩
              rw [dropBlanks, htail]
              dsimp only
              rw [dropBlanks_skip, List.append_assoc, ← hrest, hsplit]

/-- A blank at the beginning is dropped. -/
theorem dropBlanks_blank {b : List UInt8} (hb : isBlank wide b = true) (rest : List UInt8) :
    dropBlanks wide 0 (b ++ rest) = dropBlanks wide 0 rest := by
  rcases isBlank_iff.mp hb with hb | ⟨a, rfl, hblank⟩
  · obtain ⟨a, tail, rfl, ha⟩ := hwide.head b hb
    have hascii : isAsciiBlank a = false := by
      by_contra h
      exact ha (lt_of_isAsciiBlank (by simpa using h))
    have hfind : wide.find? (·.isPrefixOf (a :: (tail ++ rest))) = some (a :: tail) := by
      cases hfound : wide.find? (·.isPrefixOf (a :: (tail ++ rest))) with
      | none =>
          have h := List.find?_eq_none.mp hfound _ hb
          exact absurd (List.isPrefixOf_iff_prefix.mpr (List.prefix_append (a :: tail) rest)) h
      | some w =>
          have hw := List.mem_of_find?_eq_some hfound
          have hsome := List.find?_some hfound
          have hprefix : w <+: (a :: tail) ++ rest := List.isPrefixOf_iff_prefix.mp hsome
          -- of two prefixes of one text, one is a prefix of the other
          have happend := List.prefix_append (a :: tail) rest
          rcases List.prefix_or_prefix_of_prefix hprefix happend with h | h
          · rw [hwide.prefixFree w hw _ hb h]
          · rw [hwide.prefixFree _ hb w hw h]
    rw [List.cons_append, dropBlanks, blankTail?, hascii, if_neg (by simp), if_neg ha, hfind]
    dsimp only [Option.map_some]
    rw [dropBlanks_skip]
    simp
  · rw [List.singleton_append, dropBlanks, blankTail?, if_pos hblank]

/-- All blanks in front are dropped. -/
theorem dropBlanks_blanks {blanks : List UInt8} (h : Blanks wide blanks) (rest : List UInt8) :
    dropBlanks wide 0 (blanks ++ rest) = dropBlanks wide 0 rest := by
  induction h with
  | nil => rfl
  | cons hb _ ih => rw [List.append_assoc, dropBlanks_blank hwide hb, ih]

end Dropping

/-! ## Both ends -/

/-- Blanks after blanks are blanks. -/
theorem Blanks.append {wide : List (List UInt8)} {x y : List UInt8} (hx : Blanks wide x)
    (hy : Blanks wide y) : Blanks wide (x ++ y) := by
  induction hx with
  | nil => exact hy
  | cons hb _ ih =>
      rw [List.append_assoc]
      exact .cons hb ih

/-- Read from its end, a blank is a blank of the reversed ones. -/
theorem isBlank_reverse {wide : List (List UInt8)} (b : List UInt8) :
    isBlank (wide.map List.reverse) b.reverse = isBlank wide b := by
  simp [isBlank]

/-- Blanks in reverse are the reversed blanks. -/
theorem Blanks.reverse {wide : List (List UInt8)} {bytes : List UInt8}
    (h : Blanks wide bytes) : Blanks (wide.map List.reverse) bytes.reverse := by
  induction h with
  | nil => exact .nil
  | @cons b bytes hb _ ih =>
      rw [List.reverse_append]
      refine ih.append ?_
      have hone : Blanks (wide.map List.reverse) (b.reverse ++ []) :=
        .cons (by rw [isBlank_reverse, hb]) .nil
      rwa [List.append_nil] at hone

/-- A run of white space is one blank after the other. -/
theorem spaces_iff_blanks {bytes : List UInt8} : Spaces bytes ↔ Blanks wideBlanks bytes := by
  constructor
  · rintro ⟨s, hs, rfl⟩
    have hone : ∀ c ∈ whiteSpace, isBlank wideBlanks (String.utf8EncodeChar c) = true :=
      forall_mem_of_all (by decide)
    rw [Source.ofText_eq_flatMap]
    generalize s.toList = cs at hs
    induction cs with
    | nil => exact .nil
    | cons c cs ih =>
        rw [List.flatMap_cons]
        exact .cons (hone c (hs c (by simp))) (ih fun x hx => hs x (by simp [hx]))
  · intro h
    have hwide : ∀ b ∈ wideBlanks, whiteSpace.any (String.utf8EncodeChar · = b) = true :=
      forall_mem_of_all (by decide)
    have hascii : ∀ a, isAsciiBlank a = true →
        whiteSpace.any (String.utf8EncodeChar · = [a]) = true :=
      Source.forall_byte (by decide +kernel)
    induction h with
    | nil => exact ⟨"", by simp, rfl⟩
    | @cons b bytes hb _ ih =>
        obtain ⟨s, hs, rfl⟩ := ih
        have hchar : whiteSpace.any (String.utf8EncodeChar · = b) = true := by
          rcases isBlank_iff.mp hb with hb | ⟨a, rfl, hblank⟩
          · exact hwide b hb
          · exact hascii a hblank
        obtain ⟨c, hc, hcb⟩ := List.any_eq_true.mp hchar
        obtain rfl := of_decide_eq_true hcb
        refine ⟨String.ofList (c :: s.toList), by simpa [hc] using hs, ?_⟩
        rw [Source.ofText_eq_flatMap, Source.ofText_eq_flatMap, String.toList_ofList,
          List.flatMap_cons]

theorem spaces_nil : Spaces [] := spaces_iff_blanks.mpr .nil

/-- White space after white space is white space. -/
theorem Spaces.append {x y : List UInt8} (hx : Spaces x) (hy : Spaces y) : Spaces (x ++ y) :=
  spaces_iff_blanks.mpr ((spaces_iff_blanks.mp hx).append (spaces_iff_blanks.mp hy))

/-- No byte of a run of white space is a separator or a token byte. -/
theorem Spaces.not_mem {bytes : List UInt8} (h : Spaces bytes) {b : UInt8} (hlt : b < 0x80)
    (hb : isAsciiBlank b = false) : b ∉ bytes := by
  have hwide : ∀ w ∈ wideBlanks, w.all (0x80 ≤ ·) = true := forall_mem_of_all (by decide)
  have hblanks := spaces_iff_blanks.mp h
  clear h
  induction hblanks with
  | nil => simp
  | @cons blank bytes hblank _ ih =>
      intro hmem
      rcases List.mem_append.mp hmem with hmem | hmem
      · rcases isBlank_iff.mp hblank with hw | ⟨a, rfl, ha⟩
        · have hge := of_decide_eq_true (List.all_eq_true.mp (hwide blank hw) b hmem)
          exact absurd hlt (UInt8.not_lt.mpr hge)
        · rw [List.mem_singleton.mp hmem, ha] at hb
          cases hb
      · exact ih hmem

/-- What trimming takes off is white space. -/
theorem exists_of_trim (bytes : List UInt8) :
    ∃ before after, Spaces before ∧ Spaces after ∧ bytes = before ++ trim bytes ++ after := by
  obtain ⟨before, hbefore, hleft⟩ := exists_of_dropBlanks distinct_wideBlanks bytes
  obtain ⟨after, hafter, hright⟩ :=
    exists_of_dropBlanks distinct_reversed (trimLeft bytes).reverse
  refine ⟨before, after.reverse, spaces_iff_blanks.mpr hbefore, spaces_iff_blanks.mpr ?_, ?_⟩
  · have h := hafter.reverse
    rwa [List.map_map, List.reverse_involutive.comp_self, List.map_id] at h
  · have htrim : trimLeft bytes = trim bytes ++ after.reverse := by
      have h := congrArg List.reverse hright
      rwa [List.reverse_reverse, List.reverse_append] at h
    rw [List.append_assoc, ← htrim]
    exact hleft

/-- Trimming takes the white space around a text that begins and ends with something solid. -/
theorem trim_of_spaces {before after t : List UInt8} {first last : UInt8} (hbefore : Spaces before)
    (hafter : Spaces after) (hfirst : t.head? = some first) (hlast : t.getLast? = some last)
    (hf : first.toNat < 128 ∧ isAsciiBlank first = false)
    (hl : last.toNat < 128 ∧ isAsciiBlank last = false) : trim (before ++ t ++ after) = t := by
  have hleft : trimLeft (before ++ t ++ after) = t ++ after := by
    obtain ⟨rest, rfl⟩ := List.head?_eq_some_iff.mp hfirst
    unfold trimLeft
    rw [List.append_assoc, dropBlanks_blanks distinct_wideBlanks (spaces_iff_blanks.mp hbefore),
      List.cons_append, dropBlanks_of_solid _ _ hf.2 hf.1]
  have hright : trimRight (t ++ after) = t := by
    obtain ⟨rest, rfl⟩ := List.getLast?_eq_some_iff.mp hlast
    unfold trimRight
    rw [List.reverse_append,
      dropBlanks_blanks distinct_reversed (spaces_iff_blanks.mp hafter).reverse,
      List.reverse_append, List.reverse_singleton, List.singleton_append,
      dropBlanks_of_solid _ _ hl.2 hl.1, List.reverse_cons, List.reverse_reverse]
  rw [trim, hleft, hright]

end Straightline.Text
