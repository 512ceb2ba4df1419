import Mathlib.Algebra.Group.Int.Defs
import Mathlib.Data.List.Induction
import Mathlib.Data.List.TakeWhile
import Mathlib.Tactic.SplitIfs
import ZoneSigning.Json.Printer
import ZoneSigning.Json.Reader
import ZoneSigning.Proofs.Numerals

/-!
The text that is written for a JSON value reads back as the value. The text is cut into just the
tokens that it is put together from, because no numeral is followed by what could go on with it; and
the machine that takes up these tokens ends as if it had been given the value at once.
-/
namespace ZoneSigning.Json

mutual

/-- Whether a text carries the value: its numbers are whole ones of 64 bits, and its arrays and
objects are at most `levels` deep. -/
def isCarried (levels : Nat) : Json → Bool
  | .int n => -(2 ^ 63) ≤ n && n ≤ Text.maxLong
  | .real _ | .unreadable => false
  | .array items => 0 < levels && allCarried (levels - 1) items
  | .object members => 0 < levels && membersCarried (levels - 1) members
  | _ => true

def allCarried (levels : Nat) : List Json → Bool
  | [] => true
  | j :: rest => isCarried levels j && allCarried levels rest

def membersCarried (levels : Nat) : List (String × Json) → Bool
  | [] => true
  | (_, j) :: rest => isCarried levels j && membersCarried levels rest

end

mutual

def pieces : Json → List Token
  | .text s => [.text (some s)]
  | .array items => .openArray :: itemPieces items ++ [.closeArray]
  | .object members => .openObject :: memberPieces members ++ [.closeObject]
  | j => [.scalar j]

def itemPieces : List Json → List Token
  | [] => []
  | [j] => pieces j
  | j :: rest => pieces j ++ .comma :: itemPieces rest

def memberPieces : List (String × Json) → List Token
  | [] => []
  | [(k, j)] => .text (some k) :: .colon :: pieces j
  | (k, j) :: rest => .text (some k) :: .colon :: pieces j ++ .comma :: memberPieces rest

end

section Strings

variable {t : Draft} {c : Char} {cs rest : List Char}

/-- Everything so far has a reading, and no second half of a pair is missing. -/
def Draft.Sound (t : Draft) : Prop := t.half = none ∧ t.whole

/-- A text that has a reading so far has one with another character behind it. -/
theorem Draft.Sound.push (h : t.Sound) (c : Char) : (t.push c).Sound :=
  ⟨rfl, by simp [Draft.push, h.1, h.2]⟩

/-- A text with a reading is the token that it is read as. -/
theorem Draft.Sound.token (h : t.Sound) :
    t.token = .text (some (String.ofList t.done.reverse)) := by
  simp [Draft.token, h.1, h.2]

private theorem codeUnit?_control {n : Nat} (h : n < 0x20) :
    codeUnit? '0' '0' (hexDigit (n / 16)) (hexDigit n) = some n := by
  have hall : ∀ n < 0x20, codeUnit? '0' '0' (hexDigit (n / 16)) (hexDigit n) = some n := by decide
  exact hall n h

private theorem pushUnit_control (t : Draft) (h : c.toNat < 0x20) : t.pushUnit c.toNat = t.push c := by
  rw [Draft.pushUnit, if_neg (by simp; omega), if_neg (by simp; omega), Char.ofNat_toNat]

private theorem readText_shortEscape {short : Char} (h : shortEscape? short = some c) (hu : short ≠ 'u')
    (t : Draft) (rest : List Char) :
    readText t ('\\' :: short :: rest) = readText (t.push c) rest := by
  rw [readText]
  · rw [h]
  · rintro a b c d rest rfl
    contradiction

private theorem readText_plain (hquote : c ≠ '\"') (hback : c ≠ '\\') (hcontrol : ¬c.toNat < 0x20)
    (t : Draft) (rest : List Char) : readText t (c :: rest) = readText (t.push c) rest := by
  rw [readText]
  · rw [if_neg hcontrol]
  all_goals simp_all

/-- What is written for a character stands for it. -/
theorem readText_escape (t : Draft) (c : Char) (rest : List Char) :
    readText t (escape c ++ rest) = readText (t.push c) rest := by
  unfold escape
  split_ifs with hquote hback hline hreturn htab hbell hfeed hcontrol
  iterate 7
    subst c
    exact readText_shortEscape rfl (by decide) t rest
  · simp [readText, codeUnit?_control hcontrol, pushUnit_control t hcontrol]
  · exact readText_plain hquote hback hcontrol t rest

/-- What is written of a string reads back. -/
theorem readText_quoted (s : List Char) (h : t.Sound) (rest : List Char) :
    readText t (s.foldr (fun c rest => escape c ++ rest) ['\"'] ++ rest) =
      some (.text (some (String.ofList (t.done.reverse ++ s))), rest) := by
  induction s generalizing t with
  | nil => simp [readText, h.token]
  | cons c s ih =>
    rw [List.foldr_cons, List.append_assoc, readText_escape, ih (h.push c)]
    simp [Draft.push]

private theorem readToken_quote (s : String) (rest : List Char) :
    readToken ((quote s).toList ++ rest) = some (.text (some s), rest) := by
  rw [quote, String.toList_ofList, List.cons_append, readToken,
    readText_quoted s.toList ⟨rfl, rfl⟩ rest]
  simp

end Strings

section Numbers

variable {n : Nat} {rest : List Char}

/-- The text does not go on with a numeral. -/
def Apart (rest : List Char) : Prop :=
  ∀ c ∈ rest.head?, ¬c.isDigit ∧ c ≠ '.' ∧ c ≠ 'e' ∧ c ≠ 'E'

private theorem foldl_whole {cs : List Char} (h : Text.ofDigits cs ≤ Text.maxLong) :
    cs.foldl Significand.whole {} = ⟨Text.ofDigits cs, 0⟩ := by
  induction cs using List.reverseRecOn with
  | nil => rfl
  | append_singleton cs c ih =>
    rw [Text.ofDigits_concat] at h
    rw [List.foldl_append, ih (by omega), Text.ofDigits_concat]
    simp [Significand.whole, Nat.mul_comm, h]

private theorem Apart.takeWhile_digits (hrest : Apart rest) {cs : List Char} (hcs : ∀ c ∈ cs, c.isDigit) :
    (cs ++ rest).takeWhile Char.isDigit = cs ∧ (cs ++ rest).dropWhile Char.isDigit = rest := by
  rw [List.takeWhile_append_of_pos hcs, List.dropWhile_append_of_pos hcs]
  cases rest with
  | nil => simp
  | cons c rest => simp [(hrest c rfl).1]

/-- The digits of a number read as the number. -/
theorem readNumber_toDigits (negative : Bool) (h : n ≤ Text.maxLong) (hrest : Apart rest) :
    readNumber negative (Nat.toDigits 10 n ++ rest) =
      some (.scalar (ofWhole negative ⟨n, 0⟩), rest) := by
  obtain ⟨htake, hdrop⟩ := hrest.takeWhile_digits fun c => Text.isDigit_of_mem_toDigits (n := n)
  have hlead : ((Nat.toDigits 10 n).isEmpty || decide ((Nat.toDigits 10 n).length > 1) &&
      (Nat.toDigits 10 n).head? == some '0') = false := by
    rcases Nat.eq_zero_or_pos n with rfl | hpos
    · decide
    · simp [Nat.toDigits_ne_nil, Text.head?_toDigits hpos]
  simp only [readNumber, htake, hdrop, hlead, Bool.false_eq_true, if_false,
    foldl_whole (Text.ofDigits_toDigits n ▸ h), Text.ofDigits_toDigits]
  cases rest with
  | nil => rfl
  | cons c rest =>
    obtain ⟨-, hpoint, he, hE⟩ := hrest c rfl
    simp [hpoint, he, hE]

private theorem readToken_of_isDigit {c : Char} (hc : c.isDigit) (cs : List Char) :
    readToken (c :: cs) = readNumber false (c :: cs) := by
  rw [readToken]
  all_goals
    rintro _ heq
    obtain ⟨rfl, -⟩ := List.cons.inj heq
    exact absurd hc (by decide)

private theorem exists_toDigits (n : Nat) : ∃ c cs, Nat.toDigits 10 n = c :: cs ∧ c.isDigit := by
  obtain ⟨c, cs, hcs⟩ := List.exists_cons_of_ne_nil (Nat.toDigits_ne_nil (n := n) (b := 10))
  exact ⟨c, cs, hcs, Text.isDigit_of_mem_toDigits (hcs ▸ List.mem_cons_self)⟩

private theorem ofWhole_nonnegative (n : Nat) : ofWhole false ⟨n, 0⟩ = .int n :=
  rfl

private theorem ofWhole_negative {n : Nat} (hpos : 0 < n) (hlimit : 2 * n ≤ Text.maxLong + 1) :
    ofWhole true ⟨n, 0⟩ = .int (-n) := by
  simp [ofWhole, hpos, hlimit]

private theorem readToken_int {n : Int} (hlow : -(2 ^ 63) ≤ n) (hhigh : n ≤ Text.maxLong)
    (hrest : Apart rest) :
    readToken ((toString n).toList ++ rest) = some (.scalar (.int n), rest) := by
  have hmax : (Text.maxLong : Int) = 2 ^ 64 - 1 := rfl
  have hbound : n.natAbs ≤ Text.maxLong := by omega
  rw [Text.toList_toString_int]
  split
  · have hlimit : 2 * n.natAbs ≤ Text.maxLong + 1 := by omega
    have hvalue : -(n.natAbs : Int) = n := by omega
    rw [List.cons_append, readToken, readNumber_toDigits true hbound hrest,
      ofWhole_negative (by omega) hlimit, hvalue]
  · have hvalue : (n.natAbs : Int) = n := by omega
    have hread := readNumber_toDigits false hbound hrest
    obtain ⟨c, cs, hcs, hdigit⟩ := exists_toDigits n.natAbs
    rw [hcs, List.cons_append] at hread ⊢
    rw [readToken_of_isDigit hdigit, hread, ofWhole_nonnegative, hvalue]

end Numbers

section Cuts

variable {cs rest : List Char} {ts : List Token}

private theorem isBlank_iff {c : Char} : isBlank c ↔ c = ' ' ∨ c = '\n' ∨ c = '\r' ∨ c = '\t' := by
  simp only [isBlank, Bool.or_eq_true, beq_iff_eq, or_assoc]

/-- The text is cut into these tokens. There are no blanks in it, except at its end. -/
inductive Cut : List Char → List Token → Prop where
  | done {cs : List Char} (blank : ∀ c ∈ cs, isBlank c) : Cut cs []
  | token {p rest : List Char} {t : Token} {ts : List Token}
      (start : ∃ c ∈ p.head?, ¬isBlank c) (read : readToken (p ++ rest) = some (t, rest))
      (next : Cut rest ts) : Cut (p ++ rest) (t :: ts)

private theorem Cut.tokens_eq (h : Cut cs ts) {fuel : Nat} (hfuel : cs.length ≤ fuel) (done : List Token) :
    tokens fuel cs done = some (done.reverse ++ ts) := by
  induction h generalizing fuel done with
  | done hblank =>
    cases fuel with
    | zero => simpa [tokens] using hblank
    | succ fuel => simp [tokens, List.dropWhile_eq_nil_iff.mpr hblank]
  | @token p rest t ts hstart hread _ ih =>
    obtain ⟨c, hhead, hblank⟩ := hstart
    obtain ⟨p, rfl⟩ := List.head?_eq_some_iff.mp hhead
    obtain ⟨fuel, rfl⟩ : ∃ f, fuel = f + 1 := ⟨fuel - 1, by simp at hfuel; omega⟩
    have hshort : rest.length ≤ fuel := by
      simp at hfuel
      omega
    rw [List.cons_append] at hread ⊢
    simp [tokens, hblank, hread, ih hshort]

private theorem apart_cons {c : Char} (h : c ∈ [',', ']', '\x7d']) (cs : List Char) : Apart (c :: cs) := by
  intro d hd
  obtain rfl : c = d := by simpa using hd
  simp only [List.mem_cons, List.not_mem_nil, or_false] at h
  rcases h with rfl | rfl | rfl <;> decide

private theorem Cut.mark {c : Char} {t : Token} (hc : ¬isBlank c)
    (hread : readToken (c :: rest) = some (t, rest)) (h : Cut rest ts) : Cut (c :: rest) (t :: ts) :=
  .token (p := [c]) ⟨c, rfl, hc⟩ hread h

/-- A string in front of a text is cut off as one token. -/
theorem Cut.quote (s : String) (h : Cut rest ts) :
    Cut ((quote s).toList ++ rest) (.text (some s) :: ts) := by
  refine .token ⟨'\"', ?_, by decide⟩ (readToken_quote s rest) h
  rw [Json.quote, String.toList_ofList]
  rfl

private theorem head?_toString_int (n : Int) : ∃ c ∈ (toString n).toList.head?, ¬isBlank c := by
  rw [Text.toList_toString_int]
  split
  · exact ⟨'-', rfl, by decide⟩
  · obtain ⟨c, cs, hcs, hdigit⟩ := exists_toDigits n.natAbs
    refine ⟨c, by rw [hcs]; rfl, fun hblank => ?_⟩
    rcases isBlank_iff.mp hblank with rfl | rfl | rfl | rfl <;> exact absurd hdigit (by decide)

mutual

/-- The text of a value is cut into the tokens of the value. -/
theorem cut_compact (j : Json) {levels : Nat} (hj : j.isCarried levels) {rest : List Char}
    {ts : List Token} (hrest : Apart rest) (h : Cut rest ts) :
    Cut ((compact j).toList ++ rest) (pieces j ++ ts) := by
  cases j with
  | null => exact .token ⟨'n', rfl, by decide⟩ rfl h
  | bool b =>
    cases b with
    | false => exact .token ⟨'f', rfl, by decide⟩ rfl h
    | true => exact .token ⟨'t', rfl, by decide⟩ rfl h
  | int n =>
    simp only [isCarried, Bool.and_eq_true, decide_eq_true_eq] at hj
    exact .token (head?_toString_int n) (readToken_int hj.1 hj.2 hrest) h
  | real x => cases hj
  | text s => exact h.quote s
  | array items =>
    simp only [isCarried, Bool.and_eq_true, decide_eq_true_eq] at hj
    have hclose : Cut (']' :: rest) (.closeArray :: ts) := h.mark (by decide) rfl
    have hitems := cut_items items hj.2 (apart_cons (by simp) rest) hclose
    simpa [compact, pieces] using hitems.mark (c := '[') (by decide) rfl
  | object members =>
    simp only [isCarried, Bool.and_eq_true, decide_eq_true_eq] at hj
    have hclose : Cut ('\x7d' :: rest) (.closeObject :: ts) := h.mark (by decide) rfl
    have hmembers := cut_members members hj.2 (apart_cons (by simp) rest) hclose
    simpa [compact, pieces] using hmembers.mark (c := '\x7b') (by decide) rfl
  | unreadable => cases hj

private theorem cut_items (items : List Json) {levels : Nat} (hitems : allCarried levels items)
    {rest : List Char} {ts : List Token} (hrest : Apart rest) (h : Cut rest ts) :
    Cut ((compactItems items).toList ++ rest) (itemPieces items ++ ts) := by
  match items with
  | [] => exact h
  | [j] =>
    simp only [allCarried, Bool.and_eq_true] at hitems
    exact cut_compact j hitems.1 hrest h
  | j :: i :: more =>
    rw [allCarried, Bool.and_eq_true] at hitems
    have hmore := (cut_items (i :: more) hitems.2 hrest h).mark (c := ',') (by decide) rfl
    simpa [compactItems, itemPieces] using
      cut_compact j hitems.1 (apart_cons (by simp) _) hmore

private theorem cut_members (members : List (String × Json)) {levels : Nat}
    (hmembers : membersCarried levels members) {rest : List Char} {ts : List Token}
    (hrest : Apart rest) (h : Cut rest ts) :
    Cut ((compactMembers members).toList ++ rest) (memberPieces members ++ ts) := by
  match members with
  | [] => exact h
  | [(k, j)] =>
    simp only [membersCarried, Bool.and_eq_true] at hmembers
    have hvalue := (cut_compact j hmembers.1 hrest h).mark (c := ':') (by decide) rfl
    simpa [compactMembers, memberPieces] using hvalue.quote k
  | (k, j) :: m :: more =>
    rw [membersCarried, Bool.and_eq_true] at hmembers
    have hmore := (cut_members (m :: more) hmembers.2 hrest h).mark (c := ',') (by decide) rfl
    have hvalue := (cut_compact j hmembers.1 (apart_cons (by simp) _) hmore).mark (c := ':')
      (by decide) rfl
    simpa [compactMembers, memberPieces] using hvalue.quote k

end

end Cuts

section Machines

/-- What was expected does not matter to a value that is there. -/
theorem complete_expected (frames : List Frame) (e e' : Expected) (result : Option Json)
    (j : Json) : (Machine.mk frames e result).complete j =
      (Machine.mk frames e' result).complete j := by
  cases frames with
  | nil => rfl
  | cons frame rest => cases frame <;> rfl

private theorem close_of_lt (outer : List Frame) (h : outer.length < depthLimit) (m : Machine) (j : Json) :
    m.close j outer = { m with frames := outer }.complete j := by
  rw [Machine.close, if_pos h]

mutual

/-- The tokens of a value do what the value does. -/
theorem run_pieces (j : Json) {levels : Nat} (hj : j.isCarried levels) {frames : List Frame}
    (hdeep : frames.length + levels ≤ depthLimit) {expected : Expected}
    (hexpected : expected = .value ∨ expected = .itemOrEnd) (result : Option Json)
    (ts : List Token) : (Machine.mk frames expected result).run (pieces j ++ ts) =
      ((Machine.mk frames .separator result).complete j).bind (Machine.run · ts) := by
  have hvalue (t : Token) (j : Json) (ht : t = .scalar j ∨ ∃ s, t = .text (some s) ∧ j = .text s) :
      (Machine.mk frames expected result).run (t :: ts) =
        ((Machine.mk frames .separator result).complete j).bind (Machine.run · ts) := by
    rw [complete_expected _ _ expected]
    rcases hexpected with rfl | rfl <;> rcases ht with rfl | ⟨s, rfl, rfl⟩ <;> rfl
  cases j with
  | text s => exact hvalue _ _ (.inr ⟨s, rfl, rfl⟩)
  | array items =>
    simp only [isCarried, Bool.and_eq_true, decide_eq_true_eq] at hj
    have hopen (ts : List Token) : (Machine.mk frames expected result).run (.openArray :: ts) =
        (Machine.mk (.array [] :: frames) .itemOrEnd result).run ts := by
      rcases hexpected with rfl | rfl <;> rfl
    simp only [pieces, List.cons_append, List.append_assoc, List.nil_append]
    rw [hopen]
    cases items with
    | nil =>
      have hclose := close_of_lt frames (by omega)
      simp [itemPieces, Machine.run, Machine.step, hclose,
        complete_expected _ .itemOrEnd .separator]
    | cons i more =>
      exact run_items (i :: more) (by simp) hj.2 (by omega) (.inr rfl) [] result ts
  | object members =>
    simp only [isCarried, Bool.and_eq_true, decide_eq_true_eq] at hj
    have hopen (ts : List Token) : (Machine.mk frames expected result).run (.openObject :: ts) =
        (Machine.mk (.object [] true none :: frames) .keyOrEnd result).run ts := by
      rcases hexpected with rfl | rfl <;> rfl
    simp only [pieces, List.cons_append, List.append_assoc, List.nil_append]
    rw [hopen]
    cases members with
    | nil =>
      have hclose := close_of_lt frames (by omega)
      simp [memberPieces, Machine.run, Machine.step, hclose,
        complete_expected _ .keyOrEnd .separator]
    | cons m more =>
      exact run_members (m :: more) (by simp) hj.2 (by omega) (.inr rfl) [] result ts
  | _ => exact hvalue _ _ (.inl rfl)

private theorem run_items (items : List Json) (hne : items ≠ []) {levels : Nat}
    (hitems : allCarried levels items) {outer : List Frame}
    (hdeep : outer.length + 1 + levels ≤ depthLimit) {expected : Expected}
    (hexpected : expected = .value ∨ expected = .itemOrEnd) (done : List Json)
    (result : Option Json) (ts : List Token) :
    (Machine.mk (.array done :: outer) expected result).run
        (itemPieces items ++ .closeArray :: ts) =
      ((Machine.mk outer .separator result).complete (.array (done.reverse ++ items))).bind
        (Machine.run · ts) := by
  match items with
  | [j] =>
    simp only [allCarried, Bool.and_eq_true] at hitems
    have hclose := close_of_lt outer (by omega)
    rw [itemPieces, run_pieces j hitems.1 (by simpa using hdeep) hexpected]
    simp [Machine.complete, Machine.run, Machine.step, hclose]
  | j :: i :: more =>
    rw [allCarried, Bool.and_eq_true] at hitems
    have hmore := run_items (i :: more) (by simp) hitems.2 hdeep (.inl rfl) (j :: done) result ts
    simp only [itemPieces, List.append_assoc]
    rw [run_pieces j hitems.1 (by simpa using hdeep) hexpected]
    simpa [Machine.complete, Machine.run, Machine.step] using hmore

private theorem run_members (members : List (String × Json)) (hne : members ≠ []) {levels : Nat}
    (hmembers : membersCarried levels members) {outer : List Frame}
    (hdeep : outer.length + 1 + levels ≤ depthLimit) {expected : Expected}
    (hexpected : expected = .key ∨ expected = .keyOrEnd) (done : List (String × Json))
    (result : Option Json) (ts : List Token) :
    (Machine.mk (.object done true none :: outer) expected result).run
        (memberPieces members ++ .closeObject :: ts) =
      ((Machine.mk outer .separator result).complete (.object (done.reverse ++ members))).bind
        (Machine.run · ts) := by
  have hkey (k : String) (ts : List Token) :
      (Machine.mk (.object done true none :: outer) expected result).run
          (.text (some k) :: .colon :: ts) =
        (Machine.mk (.object done true (some k) :: outer) .value result).run ts := by
    rcases hexpected with rfl | rfl <;> rfl
  match members with
  | [(k, j)] =>
    simp only [membersCarried, Bool.and_eq_true] at hmembers
    have hclose := close_of_lt outer (by omega)
    rw [memberPieces, List.cons_append, List.cons_append, hkey,
      run_pieces j hmembers.1 (by simpa using hdeep) (.inl rfl)]
    simp [Machine.complete, Machine.run, Machine.step, hclose]
  | (k, j) :: m :: more =>
    rw [membersCarried, Bool.and_eq_true] at hmembers
    have hmore := run_members (m :: more) (by simp) hmembers.2 hdeep (.inl rfl) ((k, j) :: done)
      result ts
    simp only [memberPieces, List.cons_append, List.append_assoc]
    rw [hkey, run_pieces j hmembers.1 (by simpa using hdeep) (.inl rfl)]
    simpa [Machine.complete, Machine.run, Machine.step] using hmore

end

end Machines

/-- The text of a value that a text carries reads back as the value, whatever blanks follow it. -/
theorem parse?_compact {j : Json} (hj : j.isCarried depthLimit) {rest : String}
    (hrest : ∀ c ∈ rest.toList, isBlank c) : parse? (compact j ++ rest) = some j := by
  have hapart : Apart rest.toList := by
    intro c hc
    have hblank := hrest c (List.mem_of_mem_head? hc)
    rcases isBlank_iff.mp hblank with rfl | rfl | rfl | rfl <;> decide
  have hcut := cut_compact j hj hapart (.done hrest)
  have hrun : ({} : Machine).run (pieces j ++ []) = _ :=
    run_pieces j hj (by simp) (.inl rfl) none []
  rw [List.append_nil, ← String.toList_append] at hcut
  rw [List.append_nil] at hrun
  simp [parse?, hcut.tokens_eq le_rfl, hrun, Machine.complete, Machine.run, -String.toList_append]

end ZoneSigning.Json
