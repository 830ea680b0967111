import Straightline.Proofs.Writable

/-!
# Made-up names

Three kinds of names are made up for literals: the constant that holds a lifted literal, and the
temporaries in which a float and its upper bits are built. Each is a fixed beginning and the text of
the literal, with the characters replaced that no identifier may hold. Texts tell canonical literals
of one kind apart (`Literal.text_inj`), a text is made of few characters, and on these the
replacement is one-to-one; so the names tell literals apart as well (`names_tell_literals_apart`).
-/

set_option autoImplicit false

namespace Straightline

open Source

theorem toList_mangled (l : Literal) : l.mangled.toList = l.text.toList.map Literal.mangleChar :=
  String.toList_ofList

theorem toList_floatName (l : Literal) :
    (floatName l).toList = ['T', '_', 'f', '_'] ++ l.mangled.toList :=
  String.toList_append

theorem toList_floatHighName (l : Literal) :
    (floatHighName l).toList = ['T', '_', 'f', '_'] ++ ('h' :: 'i' :: '_' :: l.mangled.toList) :=
  String.toList_append

/-- Mangling tells the canonical literals of one kind apart. -/
theorem mangled_inj {l m : Literal} (hk : l.kind = m.kind) (hl : l.Canonical) (hm : m.Canonical)
    (h : l.mangled.toList = m.mangled.toList) : l = m := by
  rw [toList_mangled, toList_mangled] at h
  exact Literal.text_inj hk hl hm (Literal.text_eq_of_mangled_eq h)

/-- The names of floats tell canonical literals of one kind apart. -/
theorem floatName_inj {l m : Literal} (hk : l.kind = m.kind) (hl : l.Canonical) (hm : m.Canonical)
    (h : floatName l = floatName m) : l = m := by
  have hlist := congrArg String.toList h
  rw [toList_floatName, toList_floatName] at hlist
  exact mangled_inj hk hl hm (List.append_cancel_left hlist)

/-- The names of upper bits tell canonical literals of one kind apart. -/
theorem floatHighName_inj {l m : Literal} (hk : l.kind = m.kind) (hl : l.Canonical)
    (hm : m.Canonical) (h : floatHighName l = floatHighName m) : l = m := by
  have hlist := congrArg String.toList h
  rw [toList_floatHighName, toList_floatHighName] at hlist
  exact mangled_inj hk hl hm (by simpa using List.append_cancel_left hlist)

/-- No literal is written with an `h`. -/
theorem floatName_ne_floatHighName (l m : Literal) : floatName l ≠ floatHighName m := by
  intro h
  have hlist := congrArg String.toList h
  rw [toList_floatName, toList_floatHighName] at hlist
  have hmem : 'h' ∈ l.mangled.toList := by
    rw [List.append_cancel_left hlist]
    simp
  rw [toList_mangled] at hmem
  obtain ⟨c, hc, he⟩ := List.mem_map.mp hmem
  have hall : ∀ c ∈ Literal.textChars, Literal.mangleChar c ≠ 'h' := forall_mem_of_all (by decide)
  exact hall c (l.mem_textChars c hc) he

/-- Canonical literals get names of their own: the constants of any two are different, and so are
the temporaries of any two floats, those for the upper bits among them. All of these names are
identifiers. -/
theorem names_tell_literals_apart {l m : Literal} (hl : l.Canonical) (hm : m.Canonical) :
    (l.constantName = m.constantName ↔ l = m) ∧
      (l.kind = .float → m.kind = .float →
        (floatName l = floatName m ↔ l = m) ∧ (floatHighName l = floatHighName m ↔ l = m) ∧
          floatName l ≠ floatHighName m) ∧
      isIdent (ofText l.constantName) = true ∧
      (l.kind = .float →
        isIdent (ofText (floatName l)) = true ∧ isIdent (ofText (floatHighName l)) = true) := by
  refine ⟨⟨Literal.constantName_inj hl hm, congrArg _⟩, fun hkl hkm => ?_,
    (isName_constantName l).ofText.1,
    fun _ => ⟨(isName_floatName l).ofText.1, (isName_floatHighName l).ofText.1⟩⟩
  have hkind : l.kind = m.kind := hkl.trans hkm.symm
  exact ⟨⟨floatName_inj hkind hl hm, congrArg _⟩, ⟨floatHighName_inj hkind hl hm, congrArg _⟩,
    floatName_ne_floatHighName l m⟩

/-- The negative zero and the smallest float of all. -/
theorem names_tell_tiny_floats_apart :
    let l : Literal := ⟨.float, 0x80000000⟩
    let m : Literal := ⟨.float, 1⟩
    l.Canonical ∧ m.Canonical ∧ l.constantName = "C_f_m0_0" ∧ m.constantName = "C_f_1em45" ∧
      l.constantName ≠ m.constantName ∧ floatName l ≠ floatName m ∧
      floatHighName l ≠ floatHighName m ∧ floatName l ≠ floatHighName m ∧
      isIdent (ofText l.constantName) = true ∧ isIdent (ofText (floatName l)) = true ∧
      isIdent (ofText (floatHighName l)) = true := by
  intro l m
  have hl : l.Canonical := fun _ => by decide
  have hm : m.Canonical := fun _ => by decide
  have hne : l ≠ m := by decide
  obtain ⟨hconstant, hfloats, hident, hidents⟩ := names_tell_literals_apart hl hm
  obtain ⟨hlow, hhigh, hcross⟩ := hfloats rfl rfl
  exact ⟨hl, hm, by decide +kernel, by decide +kernel, mt hconstant.mp hne, mt hlow.mp hne,
    mt hhigh.mp hne, hcross, hident, hidents rfl⟩

end Straightline
