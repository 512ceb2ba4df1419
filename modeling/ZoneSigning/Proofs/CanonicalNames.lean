import ZoneSigning.Proofs.TextCuts
import ZoneSigning.Zone.Key

/-!
Names in canonical form. White space is trimmed once, before the dots at the end of a name are
dropped. So a name whose dots stand apart from the rest of it keeps white space at its end, and then
its form is not one that is kept; and nothing is left of a name that is nothing but dots.
-/
namespace ZoneSigning

/-- A name without white space and comments. -/
def Plain (name : String) : Prop := ∀ c ∈ name.toList, ¬Text.isBlank c ∧ c ≠ ';'

def Canonical (name : String) : Prop :=
  name = "." ∨ name.toList.getLast? ≠ some '.' ∧ name.toList.map Char.toLower = name.toList

section Letters

variable {c : Char}

private theorem isUpper_iff : c.isUpper ↔ 65 ≤ c.toNat ∧ c.toNat ≤ 90 :=
  decide_eq_true_iff

/-- Letters, digits and what else can be seen of ASCII is not white space. -/
theorem not_isBlank_of_visible (h : 32 < c.toNat ∧ c.toNat < 127) : ¬Text.isBlank c := by
  simp only [Text.isBlank, Bool.or_eq_true, Bool.and_eq_true, decide_eq_true_eq, beq_iff_eq]
  omega

/-- A character stays, or it is a capital and becomes a small letter. -/
theorem toLower_cases (c : Char) :
    ¬c.isUpper ∧ c.toLower = c ∨ c.isUpper ∧ 97 ≤ c.toLower.toNat ∧ c.toLower.toNat ≤ 122 := by
  unfold Char.toLower
  split
  · next hupper =>
    have hval : 65 ≤ c.val.toNat ∧ c.val.toNat ≤ 90 := hupper
    refine .inr ⟨isUpper_iff.mpr hval, ?_⟩
    show 97 ≤ (c.val + ('a'.val - 'A'.val)).toNat ∧ (c.val + ('a'.val - 'A'.val)).toNat ≤ 122
    have hshift : ('a'.val - 'A'.val).toNat = 32 := rfl
    rw [UInt32.toNat_add, hshift]
    omega
  · next hother => exact .inl ⟨fun hupper => hother (isUpper_iff.mp hupper), rfl⟩

private theorem not_isUpper_toLower (c : Char) : ¬c.toLower.isUpper := by
  rcases toLower_cases c with ⟨hupper, hc⟩ | ⟨-, hc⟩
  · rwa [hc]
  · rw [isUpper_iff]
    omega

private theorem toLower_toLower (c : Char) : c.toLower.toLower = c.toLower := by
  rcases toLower_cases c.toLower with ⟨-, hc⟩ | ⟨hupper, -⟩
  · exact hc
  · exact absurd hupper (not_isUpper_toLower c)

private theorem toLower_eq_dot (h : c.toLower = '.') : c = '.' := by
  rcases toLower_cases c with ⟨-, hc⟩ | ⟨-, hc⟩
  · exact hc.symm.trans h
  · rw [h] at hc
    exact absurd hc (by decide)

/-- Letters are not white space, in whichever case they are. -/
theorem isBlank_toLower (c : Char) : Text.isBlank c.toLower = Text.isBlank c := by
  rcases toLower_cases c with ⟨-, hc⟩ | ⟨hupper, hc⟩
  · rw [hc]
  · have hcapital := isUpper_iff.mp hupper
    rw [Bool.eq_false_iff.mpr (not_isBlank_of_visible (by omega)),
      Bool.eq_false_iff.mpr (not_isBlank_of_visible (by omega))]

private theorem not_dot_of_isBlank (h : Text.isBlank c) : ¬(c == '.') := by
  intro heq
  rw [beq_iff_eq.mp heq] at h
  exact absurd h (by decide)

private theorem plain_toLower (h : ¬Text.isBlank c ∧ c ≠ ';') :
    ¬Text.isBlank c.toLower ∧ c.toLower ≠ ';' := by
  refine ⟨by rw [isBlank_toLower]; exact h.1, fun heq => ?_⟩
  rcases toLower_cases c with ⟨-, hc⟩ | ⟨-, hc⟩
  · exact h.2 (hc.symm.trans heq)
  · rw [heq] at hc
    exact absurd hc (by decide)

end Letters

/-- Normal forms are canonical, whatever they are formed from. -/
theorem canonical_normalizeName (name : String) : Canonical (normalizeName name) := by
  unfold normalizeName
  dsimp only
  split
  · exact .inl rfl
  refine .inr ⟨?_, ?_⟩
  · rw [String.toList_ofList, List.getLast?_map]
    intro hlast
    obtain ⟨c, hc, hdot⟩ := Option.map_eq_some_iff.mp hlast
    obtain rfl := toLower_eq_dot hdot
    exact Text.getLast?_dropEnd _ _ _ hc rfl
  · rw [String.toList_ofList, List.map_map]
    exact List.map_congr_left fun c _ => toLower_toLower c

/-- The name of the root is plain. -/
theorem plain_dot : Plain "." := by
  intro c hc
  obtain rfl : c = '.' := by simpa using hc
  decide

/-- Plain names put together are plain. -/
theorem Plain.append {a b : String} (ha : Plain a) (hb : Plain b) : Plain (a ++ b) := by
  intro c hc
  rw [String.toList_append, List.mem_append] at hc
  exact hc.elim (ha c) (hb c)

/-- In a plain name there is no white space to take away. -/
theorem normalizeName_of_plain {name : String} (h : Plain name) : normalizeName name =
    if name.toList = ['.'] then "."
    else String.ofList ((Text.dropEnd (· == '.') name.toList).map Char.toLower) := by
  rw [normalizeName, Text.trimBlank_eq_self fun c hc => (h c hc).1]

/-- The form of a plain name is plain. -/
theorem plain_normalizeName {name : String} (h : Plain name) : Plain (normalizeName name) := by
  rw [normalizeName_of_plain h]
  split
  · exact plain_dot
  · intro c hc
    rw [String.toList_ofList] at hc
    obtain ⟨d, hd, rfl⟩ := List.mem_map.mp hc
    exact plain_toLower (h d ((List.rdropWhile_prefix _ _).subset hd))

section Stem

variable {name : String}

def stem (name : String) : List Char := Text.dropEnd (· == '.') (Text.trimBlank name.toList)

/-- White space parts the dots at the end of the name from the rest of it. -/
def DotsApart (name : String) : Prop :=
  ∃ front gap back, name.toList = front ++ gap :: back ∧ (∃ c ∈ front, ¬Text.isBlank c) ∧
    Text.isBlank gap ∧ '.' ∈ back ∧ ∀ c ∈ back, c = '.' ∨ Text.isBlank c

/-- The name has dots in it, two or more in a row, and else nothing but white space around them. -/
def OnlyDots (name : String) : Prop :=
  ∃ b n e, name.toList = b ++ List.replicate (n + 2) '.' ++ e ∧ (∀ c ∈ b, Text.isBlank c) ∧
    ∀ c ∈ e, Text.isBlank c

private theorem toList_normalizeName (name : String) : (normalizeName name).toList =
    if Text.trimBlank name.toList = ['.'] then ['.'] else (stem name).map Char.toLower := by
  unfold normalizeName
  dsimp only
  split
  · rfl
  · exact String.toList_ofList

/-- The dots that a name ends with, between its stem and the white space behind them. -/
theorem exists_stem (name : String) : ∃ b dots e,
    name.toList = b ++ (stem name ++ dots) ++ e ∧ Text.trimBlank name.toList = stem name ++ dots ∧
      (∀ c ∈ b, Text.isBlank c) ∧ (∀ c ∈ dots, c = '.') ∧ ∀ c ∈ e, Text.isBlank c := by
  obtain ⟨b, e, hsplit, hb, he⟩ := Text.exists_trimBlank name.toList
  have hdots : Text.trimBlank name.toList =
      stem name ++ (Text.trimBlank name.toList).rtakeWhile (· == '.') :=
    List.rdropWhile_append_rtakeWhile.symm
  refine ⟨b, _, e, hdots ▸ hsplit, hdots, hb, fun c hc => ?_, he⟩
  exact beq_iff_eq.mp (List.mem_rtakeWhile_imp (p := (· == '.')) hc)

private theorem stem_of_parted {front back : List Char} {gap : Char}
    (hname : name.toList = front ++ gap :: back) (hfront : ∃ c ∈ front, ¬Text.isBlank c)
    (hgap : Text.isBlank gap) (hdot : '.' ∈ back) : stem name = front.dropWhile Text.isBlank ++
      Text.dropEnd (· == '.') (gap :: Text.dropEnd Text.isBlank back) := by
  obtain ⟨c, hc, hblank⟩ := hfront
  have hkept : front.dropWhile Text.isBlank ≠ [] := fun hnone =>
    hblank (List.dropWhile_eq_nil_iff.mp hnone c hc)
  have htrim : Text.trimBlank name.toList =
      front.dropWhile Text.isBlank ++ gap :: Text.dropEnd Text.isBlank back := by
    have hend := Text.dropEnd_append_of_mem hdot (p := Text.isBlank) (by decide)
      (front.dropWhile Text.isBlank ++ [gap])
    rw [Text.trimBlank, hname, List.dropWhile_append, if_neg (by simpa using hkept)]
    simpa using hend
  rw [stem, htrim]
  exact Text.dropEnd_append_of_mem (c := gap) List.mem_cons_self (not_dot_of_isBlank hgap) _

/-- The stem of a name ends with white space exactly if it stands apart from the dots. -/
theorem dotsApart_iff : DotsApart name ↔ ∃ c ∈ (stem name).getLast?, Text.isBlank c := by
  constructor
  · rintro ⟨front, gap, back, hname, hfront, hgap, hdot, hback⟩
    have hne : Text.dropEnd (· == '.') (gap :: Text.dropEnd Text.isBlank back) ≠ [] := fun hnone =>
      not_dot_of_isBlank hgap (List.rdropWhile_eq_nil_iff.mp hnone gap List.mem_cons_self)
    obtain ⟨last, hlast⟩ : ∃ last, (Text.dropEnd (· == '.')
        (gap :: Text.dropEnd Text.isBlank back)).getLast? = some last :=
      ⟨_, List.getLast?_eq_some_getLast hne⟩
    refine ⟨last, ?_, ?_⟩
    · rw [stem_of_parted hname hfront hgap hdot, List.getLast?_append, hlast]
      rfl
    · have hlastDot : ¬(last == '.') := Text.getLast?_dropEnd _ _ last hlast
      have hkept := (List.rdropWhile_prefix _ _).subset (List.mem_of_getLast? hlast)
      rcases List.mem_cons.mp hkept with rfl | hmem
      · exact hgap
      · have hdot := hback last ((List.rdropWhile_prefix _ _).subset hmem)
        exact hdot.resolve_left fun heq => hlastDot (beq_iff_eq.mpr heq)
  · rintro ⟨gap, hlast, hgap⟩
    obtain ⟨b, dots, e, hname, htrim, -, hdots, he⟩ := exists_stem name
    obtain ⟨front, hfront⟩ := List.getLast?_eq_some_iff.mp hlast
    have hhead := Text.head?_trimBlank name.toList
    have hend := Text.getLast?_trimBlank name.toList
    rw [htrim, hfront] at hhead hend
    refine ⟨b ++ front, gap, dots ++ e, by rw [hname, hfront]; simp, ?_, hgap, ?_,
      fun c hc => (List.mem_append.mp hc).imp (hdots c) (he c)⟩
    -- Neither the first nor the last character of a trimmed name is white space.
    · cases front with
      | nil => exact absurd hgap (hhead gap rfl)
      | cons c front => exact ⟨c, by simp, hhead c rfl⟩
    · cases dots with
      | nil => exact absurd hgap (hend gap (by simp))
      | cons dot dots => simp [hdots dot]

/-- The form of a name does not begin with white space. -/
theorem head?_normalizeName (name : String) :
    ∀ c ∈ (normalizeName name).toList.head?, ¬Text.isBlank c := by
  rw [toList_normalizeName]
  split
  · exact fun c hc => by rw [← Option.some.inj hc]; decide
  · obtain ⟨-, dots, -, -, htrim, -⟩ := exists_stem name
    have hhead := Text.head?_trimBlank name.toList
    rw [htrim] at hhead
    cases hstem : stem name with
    | nil => exact fun c hc => nomatch hc
    | cons d rest =>
      rw [hstem] at hhead
      intro c hc
      obtain rfl : d.toLower = c := Option.some.inj hc
      rw [isBlank_toLower]
      exact hhead d rfl

/-- There are no capitals in the form of a name. -/
theorem not_isUpper_normalizeName (name : String) :
    ∀ c ∈ (normalizeName name).toList, ¬c.isUpper := by
  rw [toList_normalizeName]
  split
  · exact List.forall_mem_singleton.mpr (by decide)
  · intro c hc
    obtain ⟨d, -, rfl⟩ := List.mem_map.mp hc
    exact not_isUpper_toLower d

/-- White space stays at the end of a name exactly if it parts the name from its dots. -/
theorem isBlank_getLast?_normalizeName_iff :
    (∃ c ∈ (normalizeName name).toList.getLast?, Text.isBlank c) ↔ DotsApart name := by
  rw [dotsApart_iff, toList_normalizeName]
  split
  · next hroot =>
    have hstem : stem name = [] := by
      rw [stem, hroot]
      rfl
    simp [hstem, (by decide : Text.isBlank '.' = false)]
  · simp [List.getLast?_map, isBlank_toLower]

private theorem length_normalizeName_le (name : String) :
    (normalizeName name).toList.length ≤ (Text.trimBlank name.toList).length := by
  rw [toList_normalizeName]
  split
  · next hroot => rw [hroot]
  · rw [List.length_map]
    exact (List.rdropWhile_prefix _ _).length_le

/-- A form without white space at its end is kept. -/
theorem normalizeName_eq_self
    (hlast : ∀ c ∈ (normalizeName name).toList.getLast?, ¬Text.isBlank c) :
    normalizeName (normalizeName name) = normalizeName name := by
  have htrim := Text.trimBlank_of_ends (head?_normalizeName name) hlast
  rcases canonical_normalizeName name with hroot | ⟨hdot, hlower⟩
  · rw [hroot]
    rfl
  · generalize normalizeName name = n at *
    refine String.toList_inj.mp ?_
    rw [toList_normalizeName, stem, htrim]
    split
    · next hroot => exact hroot.symm
    · rw [Text.dropEnd_eq_rdropWhile, List.rdropWhile_eq_self_iff.mpr, hlower]
      intro hne heq
      exact hdot ((List.getLast?_eq_some_getLast hne).trans (congrArg some (beq_iff_eq.mp heq)))

/-- A second normalisation changes nothing exactly if no white space parts the dots at the end of
the name from the rest of it. -/
theorem normalizeName_normalizeName_iff :
    normalizeName (normalizeName name) = normalizeName name ↔ ¬DotsApart name := by
  rw [← isBlank_getLast?_normalizeName_iff]
  constructor
  · rintro hself ⟨c, hc, hblank⟩
    have hle := length_normalizeName_le (normalizeName name)
    have hlt := Text.length_trimBlank_lt hc hblank
    rw [hself] at hle
    omega
  · exact fun h => normalizeName_eq_self fun c hc hblank => h ⟨c, hc, hblank⟩

/-- Nothing is left of a name only if it consists of white space, or of dots. -/
theorem normalizeName_eq_empty_iff :
    normalizeName name = "" ↔ (∀ c ∈ name.toList, Text.isBlank c) ∨ OnlyDots name := by
  rw [← String.toList_inj, toList_normalizeName]
  constructor
  · intro h
    split at h
    · cases h
    · next hroot =>
      have hstem : stem name = [] := List.map_eq_nil_iff.mp h
      obtain ⟨b, dots, e, hname, htrim, hb, hdots, he⟩ := exists_stem name
      rw [hstem, List.nil_append] at hname htrim
      have hrep := List.eq_replicate_of_mem hdots
      match hlength : dots.length with
      | 0 =>
        obtain rfl := List.length_eq_zero_iff.mp hlength
        refine .inl fun c hc => ?_
        rw [hname, List.append_nil, List.mem_append] at hc
        exact hc.elim (hb c) (he c)
      | 1 =>
        rw [hlength] at hrep
        exact absurd (htrim.trans hrep) hroot
      | n + 2 =>
        rw [hlength] at hrep
        exact .inr ⟨b, n, e, hrep ▸ hname, hb, he⟩
  · rintro (hblank | ⟨b, n, e, hname, hb, he⟩)
    · have htrim : Text.trimBlank name.toList = [] := by
        have hnothing := Text.trimBlank_of_blanks hblank (a := []) (fun _ h => nomatch h) []
        rwa [List.append_nil, List.append_nil] at hnothing
      rw [stem, htrim]
      rfl
    · have htrim : Text.trimBlank name.toList = List.replicate (n + 2) '.' := by
        rw [hname, Text.trimBlank_of_blanks hb he]
        refine Text.trimBlank_eq_self fun c hc => ?_
        rw [List.eq_of_mem_replicate hc]
        decide
      have hdots : ∀ c ∈ List.replicate (n + 2) '.', c == '.' := fun c hc =>
        beq_iff_eq.mpr (List.eq_of_mem_replicate hc)
      have hend : Text.dropEnd (· == '.') (List.replicate (n + 2) '.') = [] :=
        List.rdropWhile_eq_nil_iff.mpr hdots
      rw [stem, htrim, hend]
      simp [List.replicate_succ]

end Stem

end ZoneSigning
