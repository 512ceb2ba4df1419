import Mathlib.Logic.Relation
import ZoneSigning.Proofs.OrderedMap
import ZoneSigning.Proofs.TextCuts
import ZoneSigning.Zone.Text

/-!
Zone texts are read line by line. What a line says is fixed by its words and by how it begins; of the
lines before it only the last owner matters, and only to a line that names none. So a text may be
read in two parts, and white space and comments may be put in where they part no words.
-/
namespace ZoneSigning.ZoneText

/-- What a line says, whatever has been read before it. -/
inductive Line where
  | idle
  | directive (words : List (List Char))
  | continued (words : List (List Char))
  | owned (name : String) (words : List (List Char))
  | unowned

def readRecord (found : ZoneText) (name : String) (words : List (List Char)) :
    Except Fault Reading :=
  match readData { found with names := OrderedSet.add found.names name } words with
  | .ok found => .ok ⟨found, some name⟩
  | .error e => .error e

def Line.read (r : Reading) : Line → Except Fault Reading
  | idle => .ok r
  | directive words => readDirective r words
  | continued words =>
    match r.owner with
    | none => .error .noOwner
    | some name => readRecord r.found name words
  | owned name words => readRecord r.found name words
  | unowned => .error .noOwner

/-- How a line begins, unless it begins with a blank. -/
def lead (line : List Char) : Option Char := line.head?.filter (!Text.isBlank ·)

/-- What a line in the zone `zone` says that consists of these words and begins so. -/
def Line.of (zone : String) (words : List (List Char)) (first : Option Char) : Line :=
  if words = [] then idle
  else
    let tokens := words.filter fun t => t != ['('] && t != [')']
    match first with
    | none => continued tokens
    | some c =>
      if c = '$' then directive tokens
      else
        match tokens with
        | [] => unowned
        | owner :: tokens => owned (qualify zone (String.ofList owner)) tokens

variable {zone : String} {base r r' q : Reading} {l l' : List Char}

/-- A line is its words and its beginning, both without the comment. -/
theorem readLine_eq (zone : String) (r : Reading) (raw : List Char) :
    readLine zone r raw =
      (Line.of zone (Text.splitWords (withoutComment raw)) (lead (withoutComment raw))).read r := by
  unfold readLine
  dsimp only
  generalize withoutComment raw = line
  cases line with
  | nil => rfl
  | cons first rest =>
    cases hwords : Text.splitWords (first :: rest) with
    | nil => rfl
    | cons w ws =>
      simp only [Line.of, lead, tokens, hwords, reduceCtorEq, if_false, List.head?_cons]
      generalize (w :: ws).filter (fun t => t != ['('] && t != [')']) = tokens
      by_cases hdollar : first = '$'
      · subst hdollar
        rfl
      by_cases hblank : Text.isBlank first
      · simp only [hdollar, hblank, Option.filter, if_false, if_true, Bool.not_true,
          Bool.false_eq_true, Line.read]
        rfl
      · simp only [hdollar, hblank, Option.filter, if_false, if_true, Bool.not_false,
          Bool.false_eq_true]
        cases tokens <;> rfl

private theorem readLine_congr (hwords : Text.splitWords (withoutComment l) = Text.splitWords (withoutComment l'))
    (hlead : lead (withoutComment l) = lead (withoutComment l')) (zone : String) (r : Reading) :
    readLine zone r l = readLine zone r l' := by
  rw [readLine_eq, readLine_eq, hwords, hlead]

private theorem readDirective_eq (r : Reading) (words : List (List Char)) :
    readDirective r words = (readDirective {} words).map fun q =>
      { r with found := { r.found with
          defaultTtl := q.found.defaultTtl.or r.found.defaultTtl } } := by
  unfold readDirective
  split
  · split <;> rfl
  · rfl

private theorem readData_eq (found : ZoneText) (words : List (List Char)) :
    readData found words = (readData {} words).map fun f =>
      { found with serial := f.serial.or found.serial } := by
  unfold readData
  split
  · rfl
  · split
    · rfl
    · split <;> rfl

/-- To read a record is to read its data and add its name. -/
theorem readRecord_eq (found : ZoneText) (name : String) (words : List (List Char)) :
    readRecord found name words = (readData {} words).map fun f =>
      ⟨{ found with
          names := OrderedSet.add found.names name
          serial := f.serial.or found.serial }, some name⟩ := by
  unfold readRecord
  rw [readData_eq]
  cases readData {} words <;> rfl

/-- What is known after some lines, where `r` is known after the last ones of them, read alone, and
`base` after the others. -/
structure After (base r r' : Reading) : Prop where
  names : ∀ name, r'.found.names.contains name ↔
    base.found.names.contains name ∨ r.found.names.contains name
  serial : r'.found.serial = r.found.serial.or base.found.serial
  defaultTtl : r'.found.defaultTtl = r.found.defaultTtl.or base.found.defaultTtl
  owner : r'.owner = r.owner.or base.owner

/-- After no lines, what is known is what has been known before. -/
theorem After.empty (base : Reading) : After base {} base where
  names name := by simp [OrderedMap.contains]
  serial := rfl
  defaultTtl := rfl
  owner := rfl

/-- A directive is read alike after other lines. -/
theorem After.readDirective {words : List (List Char)} (h : After base r r')
    (hq : readDirective r words = .ok q) :
    ∃ q', ZoneText.readDirective r' words = .ok q' ∧ After base q q' := by
  rw [readDirective_eq] at hq ⊢
  cases hd : ZoneText.readDirective {} words with
  | error e => rw [hd] at hq; cases hq
  | ok d =>
    rw [hd] at hq
    cases hq
    refine ⟨_, rfl, h.names, h.serial, ?_, h.owner⟩
    rw [h.defaultTtl, Option.or_assoc]

/-- A record is read alike after other lines. -/
theorem After.readRecord {name : String} {words : List (List Char)} (h : After base r r')
    (hq : readRecord r.found name words = .ok q) :
    ∃ q', ZoneText.readRecord r'.found name words = .ok q' ∧ After base q q' := by
  rw [readRecord_eq] at hq ⊢
  cases hd : readData {} words with
  | error e => rw [hd] at hq; cases hq
  | ok f =>
    rw [hd] at hq
    cases hq
    refine ⟨_, rfl, fun other => ?_, ?_, h.defaultTtl, rfl⟩
    · rw [OrderedSet.contains_add, OrderedSet.contains_add, h.names other]
      exact or_left_comm
    · rw [h.serial, Option.or_assoc]

/-- A line that can be read after some lines can be read after those and others before them. -/
theorem After.readLine {line : List Char} (h : After base r r') (hq : readLine zone r line = .ok q) :
    ∃ q', ZoneText.readLine zone r' line = .ok q' ∧ After base q q' := by
  rw [readLine_eq] at hq ⊢
  cases hline : Line.of zone (Text.splitWords (withoutComment line)) (lead (withoutComment line)) with
  | idle =>
    rw [hline] at hq
    cases hq
    exact ⟨r', rfl, h⟩
  | directive words =>
    rw [hline] at hq
    exact h.readDirective hq
  | continued words =>
    rw [hline] at hq
    cases howner : r.owner with
    | none =>
      rw [Line.read, howner] at hq
      cases hq
    | some name =>
      have howner' : r'.owner = some name := by rw [h.owner, howner]; rfl
      rw [Line.read, howner] at hq
      rw [Line.read, howner']
      exact h.readRecord hq
  | owned name words =>
    rw [hline] at hq
    exact h.readRecord hq
  | unowned =>
    rw [hline] at hq
    cases hq

/-- Lines are read alike after other lines. -/
theorem After.readAll {lines : List (List Char)} (h : After base r r')
    (hq : lines.foldlM (ZoneText.readLine zone) r = .ok q) :
    ∃ q', lines.foldlM (ZoneText.readLine zone) r' = .ok q' ∧ After base q q' := by
  induction lines generalizing r r' with
  | nil =>
    cases hq
    exact ⟨r', rfl, h⟩
  | cons line lines ih =>
    rw [List.foldlM_cons] at hq ⊢
    cases hstep : ZoneText.readLine zone r line with
    | error e => rw [hstep] at hq; cases hq
    | ok r₁ =>
      rw [hstep] at hq
      obtain ⟨r₁', hstep', h₁⟩ := h.readLine hstep
      rw [hstep']
      exact ih h₁ hq

def lines (s : String) : List (List Char) := s.toList.splitOn '\n'

/-- But for the number of a line in an error, reading is reading line after line. -/
theorem readLines_fault (zone : String) (n : Nat) (r : Reading) (ls : List (List Char)) :
    (readLines zone n r ls).mapError (·.fault) = ls.foldlM (readLine zone) r := by
  induction ls generalizing n r with
  | nil => rfl
  | cons l ls ih =>
    rw [readLines, List.foldlM_cons]
    cases readLine zone r l with
    | error e => rfl
    | ok q => exact ih (n + 1) q

private theorem read_fault (zone s : String) :
    (read zone s).mapError (·.fault) = ((lines s).foldlM (readLine zone) {}).map (·.found) := by
  rw [← readLines_fault zone 1]
  unfold read
  rw [lines]
  cases readLines zone 1 {} (s.toList.splitOn '\n') <;> rfl

/-- A text can be read exactly if its lines can be, one after the other, and has what they have. -/
theorem read_eq_ok_iff {s : String} {found : ZoneText} :
    read zone s = .ok found ↔ ∃ q, (lines s).foldlM (readLine zone) {} = .ok q ∧ q.found = found := by
  have hfault := read_fault zone s
  constructor
  · intro hread
    rw [hread] at hfault
    cases hq : (lines s).foldlM (readLine zone) {} with
    | error e => rw [hq] at hfault; cases hfault
    | ok q =>
      rw [hq] at hfault
      cases hfault
      exact ⟨q, rfl, rfl⟩
  · rintro ⟨q, hq, rfl⟩
    rw [hq] at hfault
    cases hread : read zone s with
    | error e => rw [hread] at hfault; cases hfault
    | ok found =>
      rw [hread] at hfault
      cases hfault
      rfl

section Edits

/-- Nothing but white space and a comment, all in one line. -/
def Idle (line : List Char) : Prop := '\n' ∉ line ∧ ∀ c ∈ withoutComment line, Text.isBlank c

def Gap (run : List Char) : Prop := run ≠ [] ∧ ∀ c ∈ run, Text.isBlank c ∧ c ≠ '\n'

def LineEnd (after : List Char) : Prop := after = [] ∨ ∃ rest, after = '\n' :: rest

def LineStart (before : List Char) : Prop := before = [] ∨ ∃ rest, before = rest ++ ['\n']

/-- White space or a comment is put into a text where it parts no words. -/
inductive Edit : List Char → List Char → Prop where
  | lineBefore {before line after : List Char} (hline : Idle line) (hstart : LineStart before) :
    Edit (before ++ after) (before ++ line ++ '\n' :: after)
  | lineAfter {before line after : List Char} (hline : Idle line) (hend : LineEnd after) :
    Edit (before ++ after) (before ++ '\n' :: line ++ after)
  | lineTail {before tail after : List Char} (htail : Idle tail) (hend : LineEnd after) :
    Edit (before ++ after) (before ++ tail ++ after)
  | respace {before run run' after : List Char} (hrun : Gap run) (hrun' : Gap run') :
    Edit (before ++ run ++ after) (before ++ run' ++ after)

variable {before after line tail run run' : List Char}

private theorem withoutComment_append_of_mem (h : ';' ∈ l) (x : List Char) :
    withoutComment (l ++ x) = withoutComment l := by
  induction l with
  | nil => cases h
  | cons c l ih =>
    by_cases hc : c = ';'
    · simp [withoutComment, hc]
    · have hl : ';' ∈ l := (List.mem_cons.mp h).resolve_left (Ne.symm hc)
      simpa [withoutComment, List.takeWhile_cons, hc] using ih hl

private theorem withoutComment_append_of_not_mem (h : ';' ∉ l) (x : List Char) :
    withoutComment (l ++ x) = l ++ withoutComment x :=
  List.takeWhile_append_of_pos fun c hc => by
    simpa using fun heq : c = ';' => h (heq ▸ hc)

/-- A line without a semicolon has no comment. -/
theorem withoutComment_eq_self (h : ';' ∉ l) : withoutComment l = l := by
  simpa [withoutComment] using withoutComment_append_of_not_mem h []

private theorem lead_append_blanks (l : List Char) (hrun : ∀ c ∈ run, Text.isBlank c) :
    lead (l ++ run) = lead l := by
  cases l with
  | nil =>
    cases run with
    | nil => rfl
    | cons c run => simp [lead, hrun c List.mem_cons_self]
  | cons c l => rfl

/-- A line of white space and a comment says nothing. -/
theorem readLine_idle (zone : String) (r : Reading) (hline : Idle line) :
    readLine zone r line = .ok r := by
  rw [readLine_eq, Text.splitWords_of_blanks hline.2]
  rfl

private theorem readLine_append_idle (zone : String) (r : Reading) (l : List Char) (htail : Idle tail) :
    readLine zone r (l ++ tail) = readLine zone r l := by
  by_cases hl : ';' ∈ l
  · rw [readLine_eq, readLine_eq, withoutComment_append_of_mem hl]
  · refine readLine_congr ?_ ?_ zone r <;>
      rw [withoutComment_append_of_not_mem hl, withoutComment_eq_self hl]
    · exact Text.splitWords_append_of_blanks l htail.2
    · exact lead_append_blanks l htail.2

/-- There is only white space in a gap. -/
theorem Gap.isBlank (h : Gap run) : ∀ c ∈ run, Text.isBlank c := fun c hc => (h.2 c hc).1

/-- A gap lies within one line. -/
theorem Gap.newline_not_mem (h : Gap run) : '\n' ∉ run := fun hmem => (h.2 _ hmem).2 rfl

/-- White space in front of a line is none of its comment. -/
theorem Gap.withoutComment (h : Gap run) (x : List Char) :
    withoutComment (run ++ x) = run ++ withoutComment x := by
  refine withoutComment_append_of_not_mem (fun hmem => ?_) x
  have hblank := h.isBlank _ hmem
  exact absurd hblank (by decide)

private theorem lead_gap (h : Gap run) (x : List Char) : lead (run ++ x) = none := by
  obtain ⟨hne, hblank⟩ := h
  cases run with
  | nil => exact absurd rfl hne
  | cons c run => simp [lead, (hblank c List.mem_cons_self).1]

private theorem readLine_respace (zone : String) (r : Reading) (a b : List Char) (hrun : Gap run)
    (hrun' : Gap run') : readLine zone r (a ++ run ++ b) = readLine zone r (a ++ run' ++ b) := by
  rw [List.append_assoc, List.append_assoc]
  by_cases ha : ';' ∈ a
  · rw [readLine_eq, readLine_eq, withoutComment_append_of_mem ha, withoutComment_append_of_mem ha]
  · refine readLine_congr ?_ ?_ zone r <;>
      rw [withoutComment_append_of_not_mem ha, withoutComment_append_of_not_mem ha,
        hrun.withoutComment, hrun'.withoutComment]
    · rw [← List.append_assoc, ← List.append_assoc,
        Text.splitWords_append_blanks hrun.1 hrun.isBlank,
        Text.splitWords_append_blanks hrun'.1 hrun'.isBlank]
    · cases a with
      | nil => exact (lead_gap hrun _).trans (lead_gap hrun' _).symm
      | cons c a => rfl

/-- What stands before the start of a line has its own lines. -/
theorem LineStart.splitOn (h : LineStart before) :
    ∃ ls, ∀ x, (before ++ x).splitOn '\n' = ls ++ x.splitOn '\n' := by
  obtain rfl | ⟨rest, rfl⟩ := h
  · exact ⟨[], fun x => rfl⟩
  · refine ⟨rest.splitOn '\n', fun x => ?_⟩
    rw [List.append_assoc]
    exact List.splitOn_append_cons_self rest x

/-- What stands behind the end of a line has its own lines. -/
theorem LineEnd.splitOn (h : LineEnd after) :
    ∃ rs, ∀ x, (x ++ after).splitOn '\n' = x.splitOn '\n' ++ rs := by
  obtain rfl | ⟨rest, rfl⟩ := h
  · exact ⟨[], fun x => by simp⟩
  · exact ⟨rest.splitOn '\n', fun x => List.splitOn_append_cons_self x rest⟩

private theorem foldlM_idle (zone : String) (r : Reading) (hline : Idle line) (ls rs : List (List Char)) :
    (ls ++ line :: rs).foldlM (readLine zone) r = (ls ++ rs).foldlM (readLine zone) r := by
  simp only [List.foldlM_append, List.foldlM_cons, readLine_idle zone _ hline]
  rfl

/-- The lines of an edited text are read as those of the text. -/
theorem Edit.foldlM_eq {s t : List Char} (h : Edit s t) (zone : String) (r : Reading) :
    (t.splitOn '\n').foldlM (readLine zone) r =
      (s.splitOn '\n').foldlM (readLine zone) r := by
  cases h with
  | @lineBefore before line after hline hstart =>
    obtain ⟨ls, hls⟩ := hstart.splitOn
    have hlines : (before ++ line ++ '\n' :: after).splitOn '\n' =
        ls ++ line :: after.splitOn '\n' := by
      rw [List.append_assoc, hls, List.splitOn_append_cons_self, List.splitOn_eq_singleton hline.1]
      rfl
    rw [hlines, hls, foldlM_idle zone r hline]
  | @lineAfter before line after hline hend =>
    obtain ⟨rs, hrs⟩ := hend.splitOn
    have hlines : (before ++ '\n' :: line ++ after).splitOn '\n' =
        before.splitOn '\n' ++ line :: rs := by
      rw [hrs, List.splitOn_append_cons_self, List.splitOn_eq_singleton hline.1, List.append_assoc]
      rfl
    rw [hlines, hrs, foldlM_idle zone r hline]
  | @lineTail before tail after htail hend =>
    obtain ⟨rs, hrs⟩ := hend.splitOn
    obtain ⟨ls, l, hbefore⟩ := Text.splitOn_append '\n' before
    have hs : before.splitOn '\n' = ls ++ [l] := by simpa using hbefore (b := []) rfl
    have ht : (before ++ tail).splitOn '\n' = ls ++ [l ++ tail] :=
      hbefore (List.splitOn_eq_singleton htail.1)
    rw [hrs, hrs, hs, ht]
    simp only [List.foldlM_append, List.foldlM_cons, readLine_append_idle zone _ l htail]
  | @respace before run run' after hrun hrun' =>
    obtain ⟨ls, l, hbefore⟩ := Text.splitOn_append '\n' before
    obtain ⟨first, rs, hafter⟩ := List.exists_cons_of_ne_nil (List.splitOn_ne_nil '\n' after)
    have hsplit {gap : List Char} (hgap : Gap gap) :
        (before ++ gap ++ after).splitOn '\n' = ls ++ (l ++ gap ++ first) :: rs := by
      rw [List.append_assoc, List.append_assoc]
      exact hbefore (Text.splitOn_append_of_not_mem hgap.newline_not_mem hafter)
    rw [hsplit hrun, hsplit hrun']
    simp only [List.foldlM_append, List.foldlM_cons, readLine_respace zone _ l first hrun' hrun]

end Edits

/-- Zone texts are read line by line. A text that ends where a line ends and another one after it hold
what the two hold, the later one before the earlier one. And white space and comments that part no words change
nothing but the numbers of lines in errors. -/
theorem texts_read_by_line (zone : String) :
    (∀ {first last : String} {a b : ZoneText}, read zone first = .ok a → read zone last = .ok b →
      ∃ both, read zone (first ++ "\n" ++ last) = .ok both ∧
        (∀ name, both.names.contains name ↔ a.names.contains name ∨ b.names.contains name) ∧
        both.serial = b.serial.or a.serial ∧ both.defaultTtl = b.defaultTtl.or a.defaultTtl) ∧
    ∀ {text edited : String}, Relation.ReflTransGen Edit text.toList edited.toList →
      (read zone edited).mapError (·.fault) = (read zone text).mapError (·.fault) := by
  refine ⟨fun {first last a b} ha hb => ?_, fun {text edited} hedits => ?_⟩
  · obtain ⟨base, hbase, rfl⟩ := read_eq_ok_iff.mp ha
    obtain ⟨r, hr, rfl⟩ := read_eq_ok_iff.mp hb
    obtain ⟨r', hr', hafter⟩ := (After.empty base).readAll hr
    have hlines : lines (first ++ "\n" ++ last) = lines first ++ lines last := by
      simp only [lines, String.toList_append, List.append_assoc]
      exact List.splitOn_append_cons_self first.toList last.toList
    have hboth : (lines (first ++ "\n" ++ last)).foldlM (readLine zone) {} = .ok r' := by
      rw [hlines, List.foldlM_append, hbase]
      exact hr'
    exact ⟨r'.found, read_eq_ok_iff.mpr ⟨r', hboth, rfl⟩, hafter.names, hafter.serial,
      hafter.defaultTtl⟩
  · have hlines : (lines edited).foldlM (readLine zone) {} =
        (lines text).foldlM (readLine zone) {} := by
      unfold lines
      generalize edited.toList = t at hedits ⊢
      induction hedits with
      | refl => rfl
      | tail _ hedit ih => rw [hedit.foldlM_eq, ih]
    rw [read_fault, read_fault, hlines]

/-- A zone in two parts, the first of which gets a comment. -/
theorem texts_read_by_line_twoParts :
    (∃ both, read "a" ("$TTL 60\n@ SOA m h ( 7 8 )" ++ "\n" ++ "www A 192.0.2.1") = .ok both ∧
      (∀ name, both.names.contains name ↔ name = "a" ∨ name = "www.a") ∧
      both.serial = some 7 ∧ both.defaultTtl = some 60) ∧
    (read "a" "$TTL 60\n; apex\n@ SOA m h ( 7 8 )").mapError (·.fault) =
      (read "a" "$TTL 60\n@ SOA m h ( 7 8 )").mapError (·.fault) := by
  have hfirst : read "a" "$TTL 60\n@ SOA m h ( 7 8 )" =
      .ok ⟨OrderedSet.add ∅ "a", some 7, some 60⟩ := rfl
  have hlast : read "a" "www A 192.0.2.1" = .ok ⟨OrderedSet.add ∅ "www.a", none, none⟩ := rfl
  have hnothing : withoutComment "; apex".toList = [] := rfl
  have hidle : Idle "; apex".toList := by
    refine ⟨by decide, fun c hc => ?_⟩
    rw [hnothing] at hc
    exact absurd hc List.not_mem_nil
  have hedit : Edit "$TTL 60\n@ SOA m h ( 7 8 )".toList "$TTL 60\n; apex\n@ SOA m h ( 7 8 )".toList :=
    @Edit.lineBefore "$TTL 60\n".toList _ "@ SOA m h ( 7 8 )".toList hidle (.inr ⟨"$TTL 60".toList, rfl⟩)
  refine ⟨?_, (texts_read_by_line "a").2 (.single hedit)⟩
  obtain ⟨both, hboth, hnames, hserial, httl⟩ := (texts_read_by_line "a").1 hfirst hlast
  refine ⟨both, hboth, fun name => ?_, hserial, httl⟩
  rw [hnames, OrderedSet.contains_add, OrderedSet.contains_add]
  simp [OrderedMap.contains]

end ZoneSigning.ZoneText
