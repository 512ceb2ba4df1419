import Mathlib.Data.List.Basic
import Mathlib.Data.List.DropRight
import Mathlib.Data.List.Induction
import Mathlib.Data.List.TakeWhile
import ZoneSigning.Text.Blank

/-!
Texts cut into lines and lines cut into words, seen from what the texts are put together from.
-/
namespace ZoneSigning.Text

section Lines

variable {sep c : Char} {a b h : List Char} {t : List (List Char)}

private theorem splitOn_sep_cons (sep : Char) (a : List Char) :
    (sep :: a).splitOn sep = [] :: a.splitOn sep := by
  rw [List.splitOn_cons_eq_if_modifyHead, if_pos (beq_self_eq_true sep)]

private theorem splitOn_cons_of_ne (hc : c ≠ sep) (ha : a.splitOn sep = h :: t) :
    (c :: a).splitOn sep = (c :: h) :: t := by
  rw [List.splitOn_cons_eq_if_modifyHead, if_neg (by simpa using hc), ha, List.modifyHead_cons]

/-- A text that is put before another one adds lines, and something to the first line of that. -/
theorem splitOn_append (sep : Char) (a : List Char) : ∃ ls l, ∀ {b h t},
    b.splitOn sep = h :: t → (a ++ b).splitOn sep = ls ++ (l ++ h) :: t := by
  induction a with
  | nil => exact ⟨[], [], fun hb => hb⟩
  | cons c a ih =>
    obtain ⟨ls, l, ih⟩ := ih
    by_cases hc : c = sep
    · subst hc
      exact ⟨[] :: ls, l, fun hb => by rw [List.cons_append, splitOn_sep_cons, ih hb]; rfl⟩
    · cases ls with
      | nil => exact ⟨[], c :: l, fun hb => splitOn_cons_of_ne hc (ih hb)⟩
      | cons first ls => exact ⟨(c :: first) :: ls, l, fun hb => splitOn_cons_of_ne hc (ih hb)⟩

/-- A text without line ends that is put before another one becomes part of its first line. -/
theorem splitOn_append_of_not_mem (ha : sep ∉ a) (hb : b.splitOn sep = h :: t) :
    (a ++ b).splitOn sep = (a ++ h) :: t := by
  induction a with
  | nil => exact hb
  | cons c a ih =>
    rw [List.mem_cons, not_or] at ha
    exact splitOn_cons_of_ne (Ne.symm ha.1) (ih ha.2)

/-- Lines that are written one below the other are read back. -/
theorem splitOn_flatMap {ls : List (List Char)} (hls : ∀ l ∈ ls, sep ∉ l) :
    (ls.flatMap (· ++ [sep])).splitOn sep = ls ++ [[]] := by
  induction ls with
  | nil => rfl
  | cons l ls ih =>
    rw [List.flatMap_cons, List.append_assoc, List.singleton_append,
      List.splitOn_append_cons_self_of_not_mem (hls l List.mem_cons_self),
      ih fun l' hl' => hls l' (List.mem_cons_of_mem l hl'), List.cons_append]

end Lines

section Words

variable {c d : Char} {cs w : List Char} {ws : List (List Char)}

private theorem splitWords_cons (c : Char) (cs : List Char) : splitWords (c :: cs) =
    if isBlank c then splitWords cs
    else match cs, splitWords cs with
      | d :: _, w :: ws => if isBlank d then [c] :: w :: ws else (c :: w) :: ws
      | _, ws => [c] :: ws := rfl

private theorem splitWords_cons_blank (hc : isBlank c) : splitWords (c :: cs) = splitWords cs := by
  rw [splitWords_cons, if_pos hc]

private theorem splitWords_singleton (hc : ¬isBlank c) : splitWords [c] = [[c]] := by
  rw [splitWords_cons, if_neg hc]
  rfl

private theorem splitWords_cons_cons_blank (hc : ¬isBlank c) (hd : isBlank d) :
    splitWords (c :: d :: cs) = [c] :: splitWords (d :: cs) := by
  rw [splitWords_cons, if_neg hc]
  cases splitWords (d :: cs) with
  | nil => rfl
  | cons w ws => exact if_pos hd

private theorem splitWords_cons_cons (hc : ¬isBlank c) (hd : ¬isBlank d)
    (hw : splitWords (d :: cs) = w :: ws) : splitWords (c :: d :: cs) = (c :: w) :: ws := by
  rw [splitWords_cons, if_neg hc, hw]
  exact if_neg hd

private theorem exists_splitWords (cs : List Char) (hc : ¬isBlank c) :
    ∃ w ws, splitWords (c :: cs) = w :: ws := by
  induction cs generalizing c with
  | nil => exact ⟨_, _, splitWords_singleton hc⟩
  | cons d cs ih =>
    by_cases hd : isBlank d
    · exact ⟨_, _, splitWords_cons_cons_blank hc hd⟩
    · obtain ⟨w, ws, hw⟩ := ih hd
      exact ⟨_, _, splitWords_cons_cons hc hd hw⟩

/-- A blank parts the words before it from those behind it. -/
theorem splitWords_append_blank (hc : isBlank c) (a b : List Char) :
    splitWords (a ++ c :: b) = splitWords a ++ splitWords b := by
  induction a with
  | nil => exact splitWords_cons_blank hc
  | cons d a ih =>
    by_cases hd : isBlank d
    · rw [List.cons_append, splitWords_cons_blank hd, splitWords_cons_blank hd, ih]
    · cases a with
      | nil =>
        rw [List.singleton_append, splitWords_cons_cons_blank hd hc, splitWords_singleton hd,
          splitWords_cons_blank hc]
        rfl
      | cons e a =>
        simp only [List.cons_append] at ih ⊢
        by_cases he : isBlank e
        · rw [splitWords_cons_cons_blank hd he, splitWords_cons_cons_blank hd he, ih]
          rfl
        · obtain ⟨w, ws, hw⟩ := exists_splitWords a he
          rw [splitWords_cons_cons hd he hw, splitWords_cons_cons hd he (by rw [ih, hw]; rfl)]
          rfl

/-- There are no words in white space. -/
theorem splitWords_of_blanks (hb : ∀ c ∈ b, isBlank c) : splitWords b = [] := by
  induction b with
  | nil => rfl
  | cons c b ih =>
    rw [splitWords_cons_blank (hb c List.mem_cons_self)]
    exact ih fun d hd => hb d (List.mem_cons_of_mem c hd)

/-- White space at the end of a text adds no words. -/
theorem splitWords_append_of_blanks (a : List Char) (hb : ∀ c ∈ b, isBlank c) :
    splitWords (a ++ b) = splitWords a := by
  cases b with
  | nil => rw [List.append_nil]
  | cons c b =>
    have hrest : ∀ d ∈ b, isBlank d := fun d hd => hb d (List.mem_cons_of_mem c hd)
    rw [splitWords_append_blank (hb c List.mem_cons_self), splitWords_of_blanks hrest,
      List.append_nil]

/-- Blanks between two texts part their words, however many blanks there are. -/
theorem splitWords_append_blanks (hne : b ≠ []) (hb : ∀ c ∈ b, isBlank c) (a x : List Char) :
    splitWords (a ++ b ++ x) = splitWords a ++ splitWords x := by
  rw [← List.dropLast_concat_getLast hne] at hb ⊢
  rw [← List.append_assoc, List.append_assoc, List.singleton_append,
    splitWords_append_blank (hb _ (by simp)), splitWords_append_of_blanks a fun c hc => hb c (by simp [hc])]

/-- A text without white space is one word. -/
theorem splitWords_word (hne : w ≠ []) (hw : ∀ c ∈ w, ¬isBlank c) : splitWords w = [w] := by
  induction w with
  | nil => exact absurd rfl hne
  | cons c w ih =>
    have hc : ¬isBlank c := hw c List.mem_cons_self
    cases w with
    | nil => exact splitWords_singleton hc
    | cons d w =>
      have hrest := ih (List.cons_ne_nil d w) fun e he => hw e (List.mem_cons_of_mem c he)
      exact splitWords_cons_cons hc (hw d (by simp)) hrest

/-- Words are made of the characters that are not blank. -/
theorem mem_splitWords : ∀ w ∈ splitWords cs, ∀ c ∈ w, ¬isBlank c ∧ c ∈ cs := by
  induction cs with
  | nil => exact fun w hw => nomatch hw
  | cons d cs ih =>
    by_cases hd : isBlank d
    · rw [splitWords_cons_blank hd]
      exact fun w hw c hc => (ih w hw c hc).imp_right (List.mem_cons_of_mem d)
    -- The first word is `d` alone, or `d` before the first word of the rest.
    have hword {v : List Char} {ws : List (List Char)} (hsplit : splitWords (d :: cs) = (d :: v) :: ws)
        (hv : v = [] ∨ v ∈ splitWords cs) (hws : ∀ w ∈ ws, w ∈ splitWords cs) :
        ∀ w ∈ splitWords (d :: cs), ∀ c ∈ w, ¬isBlank c ∧ c ∈ d :: cs := by
      rw [hsplit]
      intro w hw c hc
      rcases List.mem_cons.mp hw with rfl | hw
      · rcases List.mem_cons.mp hc with rfl | hc
        · exact ⟨hd, List.mem_cons_self⟩
        · have hmem : v ∈ splitWords cs := hv.resolve_left (List.ne_nil_of_mem hc)
          exact (ih v hmem c hc).imp_right (List.mem_cons_of_mem d)
      · exact (ih w (hws w hw) c hc).imp_right (List.mem_cons_of_mem d)
    cases cs with
    | nil => exact hword (splitWords_singleton hd) (.inl rfl) fun w hw => nomatch hw
    | cons e cs =>
      by_cases he : isBlank e
      · exact hword (splitWords_cons_cons_blank hd he) (.inl rfl) fun w hw => hw
      · obtain ⟨v, ws, hv⟩ := exists_splitWords cs he
        refine hword (splitWords_cons_cons hd he hv) (.inr ?_) fun w hw => ?_ <;> rw [hv]
        · exact List.mem_cons_self
        · exact List.mem_cons_of_mem v hw

end Words

/-- What words a text consists of, apart from white space, which is between any two of them. -/
inductive HasWords : List Char → List (List Char) → Prop where
  | none {b : List Char} (hb : ∀ c ∈ b, isBlank c) : HasWords b []
  | last {b w : List Char} (hb : ∀ c ∈ b, isBlank c) (hne : w ≠ []) (hw : ∀ c ∈ w, ¬isBlank c) :
      HasWords (b ++ w) [w]
  | more {b w cs : List Char} {d : Char} {ws : List (List Char)} (hb : ∀ c ∈ b, isBlank c)
      (hne : w ≠ []) (hw : ∀ c ∈ w, ¬isBlank c) (hd : isBlank d) (hrest : HasWords (d :: cs) ws) :
      HasWords (b ++ w ++ d :: cs) (w :: ws)

namespace HasWords

variable {c d : Char} {cs w : List Char} {ws : List (List Char)}

private theorem splitWords_eq (h : HasWords cs ws) : splitWords cs = ws := by
  have hfront {b x : List Char} (hb : ∀ c ∈ b, isBlank c) :
      splitWords (b ++ x) = splitWords x := by
    induction b with
    | nil => rfl
    | cons e b ih =>
      obtain ⟨he, hb⟩ := List.forall_mem_cons.mp hb
      exact (splitWords_cons_blank he).trans (ih hb)
  induction h with
  | none hb => exact splitWords_of_blanks hb
  | last hb hne hw => rw [hfront hb, splitWords_word hne hw]
  | more hb hne hw hd _ ih =>
    rw [List.append_assoc, hfront hb, splitWords_append_blank hd, splitWords_word hne hw,
      ← splitWords_cons_blank hd, ih]
    rfl

private theorem cons_blank (hc : isBlank c) (h : HasWords cs ws) : HasWords (c :: cs) ws := by
  cases h with
  | none hb => exact .none (List.forall_mem_cons.mpr ⟨hc, hb⟩)
  | last hb hne hw => exact .last (b := c :: _) (List.forall_mem_cons.mpr ⟨hc, hb⟩) hne hw
  | more hb hne hw hd hrest =>
    exact .more (b := c :: _) (List.forall_mem_cons.mpr ⟨hc, hb⟩) hne hw hd hrest

private theorem cons_cons (hc : ¬isBlank c) (hd : ¬isBlank d) (h : HasWords (d :: cs) (w :: ws)) :
    HasWords (c :: d :: cs) ((c :: w) :: ws) := by
  have hnone {b x : List Char} (hb : ∀ c ∈ b, isBlank c) (heq : b ++ x = d :: cs) : b = [] := by
    cases b with
    | nil => rfl
    | cons e b =>
      obtain ⟨rfl, -⟩ := List.cons.inj heq
      exact absurd (hb e List.mem_cons_self) hd
  generalize htext : d :: cs = text at h
  cases h with
  | last hb hne hw =>
    obtain rfl := hnone hb htext.symm
    exact .last (b := []) (fun _ h => nomatch h) (List.cons_ne_nil c w)
      (List.forall_mem_cons.mpr ⟨hc, hw⟩)
  | more hb hne hw hblank hrest =>
    obtain rfl := hnone hb (x := w ++ _) (by rw [htext, List.append_assoc])
    exact .more (b := []) (w := c :: w) (fun _ h => nomatch h) (List.cons_ne_nil c w)
      (List.forall_mem_cons.mpr ⟨hc, hw⟩) hblank hrest

private theorem of_splitWords (cs : List Char) : HasWords cs (splitWords cs) := by
  have hnone : ∀ c ∈ ([] : List Char), isBlank c := fun _ h => nomatch h
  induction cs with
  | nil => exact .none hnone
  | cons c cs ih =>
    by_cases hc : isBlank c
    · rw [splitWords_cons_blank hc]
      exact ih.cons_blank hc
    have hsingle : ∀ e ∈ [c], ¬isBlank e := List.forall_mem_singleton.mpr hc
    cases cs with
    | nil =>
      rw [splitWords_singleton hc]
      exact .last hnone (List.cons_ne_nil c []) hsingle
    | cons d cs =>
      by_cases hd : isBlank d
      · rw [splitWords_cons_cons_blank hc hd]
        exact .more hnone (List.cons_ne_nil c []) hsingle hd ih
      · obtain ⟨w, ws, hw⟩ := exists_splitWords cs hd
        rw [splitWords_cons_cons hc hd hw]
        exact (hw ▸ ih).cons_cons hc hd

/-- Words have characters, and no white space in them. -/
theorem word (h : HasWords cs ws) : ∀ w ∈ ws, w ≠ [] ∧ ∀ c ∈ w, ¬isBlank c := by
  induction h with
  | none => exact fun w hw => nomatch hw
  | last _ hne hw => exact List.forall_mem_singleton.mpr ⟨hne, hw⟩
  | more _ hne hw _ _ ih => exact List.forall_mem_cons.mpr ⟨⟨hne, hw⟩, ih⟩

end HasWords

/-- The words of a text are those of which it consists. -/
theorem words_eq_iff {text : String} {ws : List String} :
    words text = ws ↔ HasWords text.toList (ws.map String.toList) := by
  have hback (ls : List (List Char)) : (ls.map String.ofList).map String.toList = ls := by
    rw [List.map_map]
    exact (List.map_congr_left fun l _ => String.toList_ofList).trans (List.map_id ls)
  constructor
  · rintro rfl
    rw [words, hback]
    exact .of_splitWords _
  · intro h
    rw [words, h.splitWords_eq, List.map_map]
    exact (List.map_congr_left fun w _ => String.ofList_toList).trans (List.map_id ws)

section Ends

variable {p : Char → Bool} {a b cs : List Char} {c : Char}

/-- What precedes the longest run of a class at the end, as the list library has it. -/
theorem dropEnd_eq_rdropWhile (p : Char → Bool) (cs : List Char) :
    dropEnd p cs = cs.rdropWhile p := rfl

private theorem dropEnd_append_of_forall (hb : ∀ c ∈ b, p c) (a : List Char) :
    dropEnd p (a ++ b) = dropEnd p a := by
  induction b using List.reverseRecOn with
  | nil => rw [List.append_nil]
  | append_singleton b c ih =>
    rw [← List.append_assoc, dropEnd_eq_rdropWhile, List.rdropWhile_concat_pos p _ c (hb c (by simp))]
    exact ih fun d hd => hb d (List.mem_append_left _ hd)

/-- What precedes a character that is kept is kept. -/
theorem dropEnd_append_of_mem (hc : c ∈ b) (hp : ¬p c) (a : List Char) :
    dropEnd p (a ++ b) = a ++ dropEnd p b := by
  have hkept : ¬∀ d ∈ b.reverse, p d := fun hall => hp (hall c (List.mem_reverse.mpr hc))
  rw [dropEnd, List.reverse_append, List.dropWhile_append, if_neg (by simpa using hkept),
    List.reverse_append, List.reverse_reverse]
  rfl

/-- The last character that is kept is not of the class. -/
theorem getLast?_dropEnd (p : Char → Bool) (cs : List Char) :
    ∀ c ∈ (dropEnd p cs).getLast?, ¬p c := by
  intro c hc
  obtain ⟨hne, rfl⟩ := List.mem_getLast?_eq_getLast hc
  exact List.rdropWhile_last_not p cs hne

private theorem trimBlank_append_rtakeWhile (cs : List Char) :
    cs.dropWhile isBlank = trimBlank cs ++ (cs.dropWhile isBlank).rtakeWhile isBlank :=
  List.rdropWhile_append_rtakeWhile.symm

/-- Trimming takes white space away at both ends. -/
theorem exists_trimBlank (cs : List Char) : ∃ b e, cs = b ++ trimBlank cs ++ e ∧
    (∀ c ∈ b, isBlank c) ∧ ∀ c ∈ e, isBlank c := by
  refine ⟨cs.takeWhile isBlank, (cs.dropWhile isBlank).rtakeWhile isBlank, ?_,
    fun c hc => List.mem_takeWhile_imp hc, fun c hc => List.mem_rtakeWhile_imp hc⟩
  rw [List.append_assoc, ← trimBlank_append_rtakeWhile, List.takeWhile_append_dropWhile]

/-- A trimmed text does not begin with white space. -/
theorem head?_trimBlank (cs : List Char) : ∀ c ∈ (trimBlank cs).head?, ¬isBlank c := by
  intro c hc
  have hnot := List.head?_dropWhile_not isBlank cs
  rw [trimBlank_append_rtakeWhile, List.head?_append, Option.mem_def.mp hc] at hnot
  simpa using hnot

/-- A trimmed text does not end with white space. -/
theorem getLast?_trimBlank (cs : List Char) : ∀ c ∈ (trimBlank cs).getLast?, ¬isBlank c :=
  getLast?_dropEnd isBlank _

/-- A text without white space at its ends stays as it is. -/
theorem trimBlank_of_ends (hhead : ∀ c ∈ cs.head?, ¬isBlank c) (hlast : ∀ c ∈ cs.getLast?, ¬isBlank c) :
    trimBlank cs = cs := by
  have hstart : cs.dropWhile isBlank = cs := by
    cases cs with
    | nil => rfl
    | cons c cs => exact List.dropWhile_cons_of_neg (hhead c rfl)
  rw [trimBlank, hstart, dropEnd_eq_rdropWhile, List.rdropWhile_eq_self_iff]
  exact fun hne => hlast _ (List.getLast?_eq_some_getLast hne)

/-- A text without white space stays as it is. -/
theorem trimBlank_eq_self (h : ∀ c ∈ cs, ¬isBlank c) : trimBlank cs = cs :=
  trimBlank_of_ends (fun c hc => h c (List.mem_of_mem_head? hc)) fun c hc =>
    h c (List.mem_of_getLast? hc)

/-- A text that ends with white space becomes shorter. -/
theorem length_trimBlank_lt (hc : c ∈ cs.getLast?) (hblank : isBlank c) :
    (trimBlank cs).length < cs.length := by
  obtain ⟨b, e, hsplit, -, -⟩ := exists_trimBlank cs
  have hlength := congrArg List.length hsplit
  simp only [List.length_append] at hlength
  by_contra hle
  obtain rfl : b = [] := List.length_eq_zero_iff.mp (by omega)
  obtain rfl : e = [] := List.length_eq_zero_iff.mp (by omega)
  rw [List.nil_append, List.append_nil] at hsplit
  exact getLast?_trimBlank cs c (hsplit ▸ hc) hblank

/-- White space around a text does not matter. -/
theorem trimBlank_of_blanks (hb : ∀ c ∈ b, isBlank c) (ha : ∀ c ∈ a, isBlank c) (cs : List Char) :
    trimBlank (b ++ cs ++ a) = trimBlank cs := by
  have hstart : (b ++ cs ++ a).dropWhile isBlank = (cs ++ a).dropWhile isBlank := by
    rw [List.append_assoc, List.dropWhile_append, if_pos (by simpa using hb)]
  rw [trimBlank, hstart, List.dropWhile_append]
  split
  · next hnone =>
    have hall : ∀ c ∈ a.dropWhile isBlank, isBlank c := fun c hc =>
      ha c ((List.dropWhile_sublist isBlank).subset hc)
    have hend := dropEnd_append_of_forall hall []
    rw [trimBlank, List.isEmpty_iff.mp hnone]
    exact hend
  · exact dropEnd_append_of_forall ha _

end Ends

end ZoneSigning.Text
