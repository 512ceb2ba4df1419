import ZoneSigning.Proofs.CanonicalNames
import ZoneSigning.Proofs.LineReading
import ZoneSigning.Proofs.Numerals
import ZoneSigning.Proofs.OutputWriters

/-!
What is written of a zone, read again. Every name is written as an absolute name on a line of its own,
and what reading makes of such a line depends on the name alone: a name that begins with a dollar
sign is taken for a directive, and the empty name for the root.
-/
namespace ZoneSigning

namespace ZoneText

private theorem plain_absolute {name : String} (h : Plain name) : Plain (absolute name) := by
  unfold absolute
  split
  · exact h
  · exact h.append plain_dot

private theorem toList_absolute {name : String} (hroot : name ≠ ".") :
    (absolute name).toList = name.toList ++ ['.'] := by
  rw [absolute, if_neg hroot, String.toList_append]
  rfl

private theorem getLast?_absolute (name : String) : (absolute name).toList.getLast? = some '.' := by
  by_cases hroot : name = "."
  · subst hroot
    rfl
  · rw [toList_absolute hroot, List.getLast?_concat]

/-- The name that an absolute name is read as. -/
def readBack (name : String) : String := if name = "" then "." else name

private theorem normalizeName_absolute {name : String} (hcanonical : Canonical name) (hplain : Plain name) :
    normalizeName (absolute name) = readBack name := by
  rw [normalizeName_of_plain (plain_absolute hplain)]
  by_cases hempty : name = ""
  · subst hempty
    rfl
  by_cases hroot : name = "."
  · subst hroot
    rfl
  obtain ⟨hlast, hlower⟩ := hcanonical.resolve_left hroot
  have hlist := toList_absolute hroot
  have hne : name.toList ++ ['.'] ≠ ['.'] := by
    simpa using hempty
  rw [hlist, if_neg hne, Text.dropEnd_eq_rdropWhile, List.rdropWhile_concat_pos _ _ _ (by decide),
    List.rdropWhile_eq_self_iff.mpr, hlower, String.ofList_toList, readBack, if_neg hempty]
  intro hnil hdot
  exact hlast ((List.getLast?_eq_some_getLast hnil).trans (congrArg some (beq_iff_eq.mp hdot)))

/-- A name that reading gives. -/
structure Tidy (name : String) : Prop where
  canonical : Canonical name
  plain : Plain name

private theorem tidy_normalizeName {name : String} (h : Plain name) : Tidy (normalizeName name) :=
  ⟨canonical_normalizeName name, plain_normalizeName h⟩

variable {zone : String} {r q : Reading} {line : List Char}

private theorem tidy_qualify {owner : String} (hzone : Tidy zone) (howner : Plain owner) :
    Tidy (qualify zone owner) := by
  unfold qualify
  split
  · exact hzone
  split
  · exact tidy_normalizeName howner
  · exact tidy_normalizeName ((howner.append plain_dot).append hzone.plain)

private theorem plain_word {w : List Char} (hw : w ∈ Text.splitWords (withoutComment line)) :
    Plain (String.ofList w) := by
  intro c hc
  rw [String.toList_ofList] at hc
  obtain ⟨hblank, hmem⟩ := Text.mem_splitWords w hw c hc
  exact ⟨hblank, by simpa using List.mem_takeWhile_imp hmem⟩

/-- What is known while a text is read: names that reading gives, and a default TTL of 32 bits. -/
structure Reading.Proper (r : Reading) : Prop where
  names : ∀ name, r.found.names.contains name → Tidy name
  owner : ∀ name ∈ r.owner, Tidy name
  defaultTtl : ∀ n ∈ r.found.defaultTtl, n ≤ Text.maxWord

private theorem le_of_readNumeral {limit n : Nat} {cs : List Char} (h : Text.readNumeral limit cs = some n) :
    n ≤ limit := by
  unfold Text.readNumeral at h
  dsimp only at h
  generalize (if cs.head? = some '+' then cs.tail else cs) = digits at h
  split at h
  · cases h
  · split at h
    · next hle => exact Option.some.inj h ▸ hle
    · cases h

/-- A directive adds nothing improper to what is known. -/
theorem Reading.Proper.readDirective {words : List (List Char)} (h : r.Proper)
    (hq : ZoneText.readDirective r words = .ok q) : q.Proper := by
  unfold ZoneText.readDirective at hq
  split at hq
  · split at hq
    · next n hn =>
      cases hq
      exact ⟨h.names, h.owner, fun m hm => Option.some.inj hm ▸ le_of_readNumeral hn⟩
    · cases hq
  · cases hq
    exact h

/-- A record with a tidy name adds nothing improper to what is known. -/
theorem Reading.Proper.readRecord {name : String} {words : List (List Char)} (h : r.Proper)
    (hname : Tidy name) (hq : ZoneText.readRecord r.found name words = .ok q) : q.Proper := by
  rw [readRecord_eq] at hq
  cases hd : readData {} words with
  | error e => rw [hd] at hq; cases hq
  | ok f =>
    rw [hd] at hq
    cases hq
    refine ⟨fun other hother => ?_, fun other hother => Option.some.inj hother ▸ hname, h.defaultTtl⟩
    rcases (OrderedSet.contains_add _ _ _).mp hother with rfl | hother
    · exact hname
    · exact h.names other hother

private theorem tidy_of_owned {words rest : List (List Char)} {first : Option Char} {name : String}
    (hzone : Tidy zone) (hwords : ∀ w ∈ words, Plain (String.ofList w))
    (h : Line.of zone words first = .owned name rest) : Tidy name := by
  unfold Line.of at h
  split at h
  · cases h
  · dsimp only at h
    split at h
    · cases h
    · split at h
      · cases h
      · split at h
        · cases h
        · next owner tokens htokens =>
          cases h
          have hmem : owner ∈ words :=
            List.mem_of_mem_filter (htokens ▸ List.mem_cons_self : owner ∈ _)
          exact tidy_qualify hzone (hwords owner hmem)

/-- A line in a zone with a tidy name adds nothing improper to what is known. -/
theorem Reading.Proper.readLine (hzone : Tidy zone) (h : r.Proper)
    (hq : ZoneText.readLine zone r line = .ok q) : q.Proper := by
  rw [readLine_eq] at hq
  cases hline : Line.of zone (Text.splitWords (withoutComment line)) (lead (withoutComment line)) with
  | idle =>
    rw [hline] at hq
    cases hq
    exact h
  | directive words =>
    rw [hline] at hq
    exact h.readDirective hq
  | continued words =>
    rw [hline, Line.read] at hq
    cases howner : r.owner with
    | none => rw [howner] at hq; cases hq
    | some name =>
      rw [howner] at hq
      exact h.readRecord (h.owner name howner) hq
  | owned name words =>
    rw [hline] at hq
    exact h.readRecord (tidy_of_owned hzone (fun w => plain_word) hline) hq
  | unowned =>
    rw [hline] at hq
    cases hq

/-- Lines in a zone with a tidy name add nothing improper to what is known. -/
theorem Reading.Proper.readAll {ls : List (List Char)} (hzone : Tidy zone) (h : r.Proper)
    (hq : ls.foldlM (ZoneText.readLine zone) r = .ok q) : q.Proper := by
  induction ls generalizing r with
  | nil =>
    cases hq
    exact h
  | cons l ls ih =>
    rw [List.foldlM_cons] at hq
    cases hstep : ZoneText.readLine zone r l with
    | error e => rw [hstep] at hq; cases hq
    | ok r₁ =>
      rw [hstep] at hq
      exact ih (h.readLine hzone hstep) hq

private theorem proper_empty : Reading.Proper {} where
  names name hname := by simp [OrderedMap.contains] at hname
  owner name hname := by cases hname
  defaultTtl n hn := by cases hn

private theorem plain_toString (n : Nat) : Plain (toString n) := by
  intro c hc
  rw [Text.toList_toString] at hc
  have hrange : 48 ≤ c.toNat ∧ c.toNat ≤ 57 := by
    simpa [Char.isDigit, UInt32.le_iff_toNat_le] using Text.isDigit_of_mem_toDigits hc
  refine ⟨not_isBlank_of_visible (by omega), fun heq => ?_⟩
  rw [heq] at hrange
  exact absurd hrange (by decide)

private theorem qualify_absolute {name : String} (h : Tidy name) (zone : String) :
    qualify zone (absolute name) = readBack name := by
  have hlast := getLast?_absolute name
  have hne : absolute name ≠ "@" := fun heq => by
    rw [heq] at hlast
    exact absurd hlast (by decide)
  rw [qualify, if_neg hne, if_pos (by simp [hlast])]
  exact normalizeName_absolute h.canonical h.plain

private theorem withoutComment_of_plain {text : String} (h : Plain text) :
    withoutComment text.toList = text.toList :=
  withoutComment_eq_self fun hmem => (h ';' hmem).2 rfl

private theorem readDirective_singleton (r : Reading) (word : List Char) :
    readDirective r [word] = .ok r := by
  unfold readDirective
  split
  · next h => cases h
  · rfl

/-- The line of a name has one word. -/
theorem readLine_absolute_eq {name : String} (h : Tidy name) (zone : String) (r : Reading) :
    readLine zone r (absolute name).toList =
      if name.toList.head? = some '$' then .ok r
      else readRecord r.found (readBack name) [] := by
  have hplain := plain_absolute h.plain
  obtain ⟨c, cs, hc⟩ : ∃ c cs, (absolute name).toList = c :: cs := by
    refine List.exists_cons_of_ne_nil fun hnil => ?_
    have hlast := getLast?_absolute name
    rw [hnil] at hlast
    cases hlast
  have hblank : ¬Text.isBlank c := (hplain c (hc ▸ List.mem_cons_self)).1
  have hword : Text.splitWords (absolute name).toList = [(absolute name).toList] :=
    Text.splitWords_word (hc ▸ List.cons_ne_nil c cs) fun d hd => (hplain d hd).1
  have hfirst : c = '$' ↔ name.toList.head? = some '$' := by
    by_cases hroot : name = "."
    · subst hroot
      obtain rfl : '.' = c := (List.cons.inj hc).1
      decide
    · rw [toList_absolute hroot] at hc
      cases hname : name.toList with
      | nil =>
        rw [hname] at hc
        obtain rfl : '.' = c := (List.cons.inj hc).1
        decide
      | cons d ds =>
        rw [hname] at hc
        obtain rfl : d = c := (List.cons.inj hc).1
        simp
  have hparen : ∀ {d : Char}, d ≠ '.' → (absolute name).toList ≠ [d] := fun {d} hd heq => by
    have hlast := getLast?_absolute name
    rw [heq] at hlast
    exact hd (Option.some.inj hlast)
  have hlead : lead (absolute name).toList = some c := by
    simp [lead, hc, hblank]
  have htokens : ([(absolute name).toList].filter fun t => t != ['('] && t != [')']) =
      [(absolute name).toList] := by
    simp [hparen]
  rw [readLine_eq, withoutComment_of_plain hplain, hword, hlead]
  simp only [Line.of, htokens, List.cons_ne_nil, if_false, ← hfirst]
  split
  · exact readDirective_singleton r _
  · rw [Line.read, String.ofList_toList, qualify_absolute h]

private theorem readDirective_ttl {ttl : List Char} {n : Nat}
    (h : Text.readNumeral Text.maxWord ttl = some n) (r : Reading) :
    readDirective r [['$', 'T', 'T', 'L'], ttl] =
      .ok { r with found := { r.found with defaultTtl := some n } } := by
  simp only [readDirective, h]

private theorem readLine_ttl {n : Nat} (h : n ≤ Text.maxWord) (zone : String) (r : Reading) :
    readLine zone r ("$TTL " ++ toString n).toList =
      .ok { r with found := { r.found with defaultTtl := some n } } := by
  have hplain : ∀ c ∈ Nat.toDigits 10 n, ¬Text.isBlank c ∧ c ≠ ';' :=
    Text.toList_toString n ▸ plain_toString n
  have hline : ("$TTL " ++ toString n).toList = "$TTL".toList ++ ' ' :: Nat.toDigits 10 n := by
    rw [String.toList_append, Text.toList_toString]
    rfl
  have hcomment : withoutComment ("$TTL".toList ++ ' ' :: Nat.toDigits 10 n) =
      "$TTL".toList ++ ' ' :: Nat.toDigits 10 n := by
    refine withoutComment_eq_self fun hmem => ?_
    rcases List.mem_append.mp hmem with hmem | hmem
    · exact absurd hmem (by decide)
    · rcases List.mem_cons.mp hmem with heq | hmem
      · exact absurd heq (by decide)
      · exact (hplain ';' hmem).2 rfl
  have hwords : Text.splitWords ("$TTL".toList ++ ' ' :: Nat.toDigits 10 n) =
      ["$TTL".toList, Nat.toDigits 10 n] := by
    rw [Text.splitWords_append_blank (by decide),
      Text.splitWords_word Nat.toDigits_ne_nil fun c hc => (hplain c hc).1]
    rfl
  have hparen : ∀ {d : Char}, ¬d.isDigit → Nat.toDigits 10 n ≠ [d] := fun {d} hd heq =>
    hd (Text.isDigit_of_mem_toDigits (heq ▸ List.mem_singleton_self d))
  have htokens : (["$TTL".toList, Nat.toDigits 10 n].filter fun t => t != ['('] && t != [')']) =
      ["$TTL".toList, Nat.toDigits 10 n] := by
    simp [hparen]
  have hof : Line.of zone ["$TTL".toList, Nat.toDigits 10 n] (some '$') =
      .directive ["$TTL".toList, Nat.toDigits 10 n] := by
    simp only [Line.of, htokens, List.cons_ne_nil, if_false, if_true]
  rw [hline, readLine_eq, hcomment, hwords]
  exact (congrArg (Line.read r) hof).trans (readDirective_ttl (Text.readNumeral_toDigits h) r)

/-- The names of a zone, read line by line from what is written of them. -/
theorem foldlM_absolute (zone : String) (names : List String) (hnames : ∀ name ∈ names, Tidy name)
    (r : Reading) : ∃ q, (names.map fun name => (absolute name).toList).foldlM (readLine zone) r = .ok q ∧
      q.found.serial = r.found.serial ∧ q.found.defaultTtl = r.found.defaultTtl ∧
      ∀ other, q.found.names.contains other ↔ r.found.names.contains other ∨
        ∃ name ∈ names, name.toList.head? ≠ some '$' ∧ other = readBack name := by
  induction names generalizing r with
  | nil => exact ⟨r, rfl, rfl, rfl, fun other => by simp⟩
  | cons name names ih =>
    have hname : Tidy name := hnames name List.mem_cons_self
    have hrest : ∀ name ∈ names, Tidy name := fun n hn => hnames n (List.mem_cons_of_mem name hn)
    rw [List.map_cons, List.foldlM_cons, readLine_absolute_eq hname]
    by_cases hdollar : name.toList.head? = some '$'
    · rw [if_pos hdollar]
      obtain ⟨q, hq, hserial, httl, hnames⟩ := ih hrest r
      refine ⟨q, hq, hserial, httl, fun other => (hnames other).trans (or_congr_right ?_)⟩
      simp [hdollar]
    · rw [if_neg hdollar]
      obtain ⟨q, hq, hserial, httl, hnames⟩ := ih hrest
        ⟨{ r.found with names := r.found.names.add (readBack name) }, some (readBack name)⟩
      refine ⟨q, hq, hserial, httl, fun other => ?_⟩
      rw [hnames, OrderedSet.contains_add]
      simp only [List.mem_cons, exists_eq_or_imp, hdollar, not_false_eq_true, true_and, ne_eq]
      exact (or_congr_left or_comm).trans or_assoc

private theorem toList_render (apex : String) (serial ttl : Nat) (names : OrderedSet String) :
    (render apex serial ttl names).toList =
      (("; " ++ apex ++ " signed, serial " ++ toString serial).toList ::
        ("$TTL " ++ toString ttl).toList ::
        names.members.map fun name => (absolute name).toList).flatMap (· ++ ['\n']) := by
  have hjoin : (String.join (names.members.map fun name => absolute name ++ "\n")).toList =
      (names.members.map fun name => (absolute name).toList).flatMap (· ++ ['\n']) := by
    rw [String.toList_join, List.flatMap_map, List.flatMap_map]
    exact List.flatMap_congr fun name _ => String.toList_append
  rw [List.flatMap_cons, List.flatMap_cons, ← hjoin, render]
  simp only [String.toList_append, List.append_assoc]
  rfl

/-- A plain name stands in one line. -/
theorem newline_not_mem {text : String} (h : Plain text) : '\n' ∉ text.toList :=
  fun hmem => absurd (by decide) (h '\n' hmem).1

private theorem newline_not_mem_toDigits (n : Nat) : '\n' ∉ Nat.toDigits 10 n :=
  Text.toList_toString n ▸ newline_not_mem (plain_toString n)

private theorem idle_heading {apex : String} (hapex : Plain apex) (serial : Nat) :
    Idle ("; " ++ apex ++ " signed, serial " ++ toString serial).toList := by
  have hline : ("; " ++ apex ++ " signed, serial " ++ toString serial).toList =
      ';' :: ' ' :: (apex.toList ++ (" signed, serial ".toList ++ Nat.toDigits 10 serial)) := by
    simp only [String.toList_append, Text.toList_toString, List.append_assoc]
    rfl
  rw [hline]
  refine ⟨?_, fun c hc => ?_⟩
  · have htext : '\n' ∉ " signed, serial ".toList := by decide
    simp only [List.mem_cons, List.mem_append, newline_not_mem hapex, htext,
      newline_not_mem_toDigits, or_false]
    decide
  · rw [withoutComment, List.takeWhile_cons_of_neg (by decide)] at hc
    cases hc

private theorem newline_not_mem_ttl (n : Nat) : '\n' ∉ ("$TTL " ++ toString n).toList := by
  have htext : '\n' ∉ "$TTL ".toList := by decide
  simp only [String.toList_append, Text.toList_toString, List.mem_append, htext,
    newline_not_mem_toDigits, or_false, not_false_eq_true]

/-- The text of a zone can be read; the names that begin with a dollar sign are lost. -/
theorem read_render (zone : String) {apex : String} {names : OrderedSet String} {ttl : Nat}
    (serial : Nat) (hapex : Plain apex) (httl : ttl ≤ Text.maxWord)
    (hnames : ∀ name ∈ names.members, Tidy name) :
    ∃ back, read zone (render apex serial ttl names) = .ok back ∧ back.serial = none ∧
      back.defaultTtl = some ttl ∧ ∀ other, back.names.contains other ↔
        ∃ name ∈ names.members, name.toList.head? ≠ some '$' ∧ other = readBack name := by
  have hlines : lines (render apex serial ttl names) =
      ("; " ++ apex ++ " signed, serial " ++ toString serial).toList ::
        ("$TTL " ++ toString ttl).toList ::
        ((names.members.map fun name => (absolute name).toList) ++ [[]]) := by
    rw [lines, toList_render]
    refine Text.splitOn_flatMap fun l hl => ?_
    rcases List.mem_cons.mp hl with rfl | hl
    · exact (idle_heading hapex serial).1
    rcases List.mem_cons.mp hl with rfl | hl
    · exact newline_not_mem_ttl ttl
    · obtain ⟨name, hname, rfl⟩ := List.mem_map.mp hl
      exact newline_not_mem (plain_absolute (hnames name hname).plain)
  obtain ⟨q, hq, hserial, hdefault, hcontains⟩ := foldlM_absolute zone names.members hnames
    { found := { defaultTtl := some ttl } }
  have hlast : readLine zone q [] = .ok q := rfl
  have hread : (lines (render apex serial ttl names)).foldlM (readLine zone) {} = .ok q := by
    rw [hlines, List.foldlM_cons, readLine_idle zone _ (idle_heading hapex serial)]
    show (("$TTL " ++ toString ttl).toList :: _).foldlM (readLine zone) {} = _
    rw [List.foldlM_cons, readLine_ttl httl]
    show List.foldlM (readLine zone) { found := { defaultTtl := some ttl } } _ = _
    rw [List.foldlM_append, hq]
    exact hlast
  refine ⟨q.found, read_eq_ok_iff.mpr ⟨q, hread, rfl⟩, hserial, hdefault, fun other => ?_⟩
  rw [hcontains]
  simp [OrderedMap.contains]

/-- The names that reading gives back are the names that were written, if none of them is empty or
begins with a dollar sign, and only then. -/
theorem names_eq_iff {names back : OrderedSet String}
    (hback : ∀ other, back.contains other ↔
      ∃ name ∈ names.members, name.toList.head? ≠ some '$' ∧ other = readBack name) :
    back = names ↔ ∀ name ∈ names.members, name ≠ "" ∧ name.toList.head? ≠ some '$' := by
  constructor
  · rintro rfl name hname
    obtain ⟨other, -, hother, rfl⟩ := (hback name).mp (OrderedSet.mem_members.mp hname)
    unfold readBack
    split
    · exact ⟨by decide, by decide⟩
    · exact ⟨‹_›, hother⟩
  · intro hnames
    refine OrderedSet.ext_contains fun other => (hback other).trans ⟨?_, fun hother => ?_⟩
    · rintro ⟨name, hname, -, rfl⟩
      rw [readBack, if_neg (hnames name hname).1]
      exact OrderedSet.mem_members.mp hname
    · have hmem := OrderedSet.mem_members.mpr hother
      obtain ⟨hne, hdollar⟩ := hnames other hmem
      exact ⟨other, hmem, hdollar, by rw [readBack, if_neg hne]⟩

end ZoneText

namespace Zone

open ZoneText

variable {z : Zone} {s s' : ZoneState} {files fs fs' : FileStore}

private theorem plain_apex (h : Plain z.name) : Plain z.apex := by
  intro c hc
  rw [apex, apex.apexOf, String.toList_ofList, List.mem_append] at hc
  rcases hc with hc | hc
  · exact h c ((List.rdropWhile_prefix _ _).subset hc)
  · exact plain_dot c hc

private theorem rendered_ok {path : Path} {text : String} (h : s.rendered z = .ok (path, text)) :
    path = s.output.path ∧ ∃ serial, text = render z.apex serial s.defaultTtl s.db.names := by
  refine ⟨Writing.path_of_rendered h, ?_⟩
  obtain ⟨p, -, h⟩ := bind_eq_ok.mp h
  split at h
  · cases h
  · next serial _ =>
    exact ⟨serial, (congrArg Prod.snd (pure_eq_ok.mp h)).symm⟩

/-- After a call that succeeds, the text is at its place. -/
theorem writeOutput_ok (h : fs.writeOutput z s = (.ok (), fs')) :
    ∃ serial, fs'.readText s.output.path =
      .ok (render z.apex serial s.defaultTtl s.db.names) := by
  unfold FileStore.writeOutput at h
  split at h
  · cases h
  next path text hrendered =>
    obtain ⟨rfl, serial, rfl⟩ := rendered_ok hrendered
    split at h
    · cases h
    next drafted hdraft =>
      split at h
      · cases h
      next published hpublish =>
        cases h
        obtain ⟨_, -, -, htext⟩ := FileStore.writeDraft_ok hdraft
        obtain ⟨_, -, -, htext⟩ := FileStore.publish_ok htext hpublish
        exact ⟨serial, htext.readText⟩

/-- What has been read of a zone and then written reads back. If the zone's name has no white space
and no semicolon, the text at the output's place can be read; it gives the default TTL and no serial,
and it gives the zone's names if and only if none of them is empty or begins with a dollar sign. -/
theorem written_zone_reads_back {name : String} {cls : DnsClass} (hkey : z.key = ZoneKey.of name cls)
    (hplain : Plain z.name) (httl : s.defaultTtl ≤ Text.maxWord)
    (hread : s.readInput z.key files = .ok (.fresh, s'))
    (hwrite : fs.writeOutput z s' = (.ok (), fs')) :
    ∃ text back, fs'.readText s'.output.path = .ok text ∧ ZoneText.read z.name text = .ok back ∧
      back.serial = none ∧ back.defaultTtl = some s'.defaultTtl ∧
      (back.names = s'.db.names ↔
        ∀ owner ∈ s'.db.names.members, owner ≠ "" ∧ owner.toList.head? ≠ some '$') := by
  have hzone : Tidy z.name := by
    refine ⟨?_, hplain⟩
    rw [Zone.name, hkey]
    exact canonical_normalizeName name
  obtain ⟨time, -, ⟨hstatus, -⟩ | ⟨-, text, content, -, hcontent, rfl⟩⟩ :=
    ZoneState.readInput_eq_ok hread
  · cases hstatus
  obtain ⟨q, hq, rfl⟩ := read_eq_ok_iff.mp hcontent
  have hproper : q.Proper := proper_empty.readAll hzone hq
  have httl' : (s.withContent q.found time).defaultTtl ≤ Text.maxWord := by
    show q.found.defaultTtl.getD s.defaultTtl ≤ Text.maxWord
    cases hdefault : q.found.defaultTtl with
    | none => exact httl
    | some n => exact hproper.defaultTtl n hdefault
  obtain ⟨serial, htext⟩ := writeOutput_ok hwrite
  obtain ⟨back, hback, hserial, hdefault, hnames⟩ := read_render z.name serial
    (plain_apex hplain) httl' fun owner howner => hproper.names owner (OrderedSet.mem_members.mp howner)
  exact ⟨_, back, htext, hback, hserial, hdefault, names_eq_iff hnames⟩

def inToOut : Zone where
  key := .of "z" .internet
  record := 0
  state := { input := { path := ⟨"in"⟩ }, output := { path := ⟨"out"⟩ } }

def inToOutWith (names : List String) : ZoneState :=
  inToOut.state.withContent { names := .ofMembers names, serial := some 7 } 1

def fileAt (path text : String) (time : FileTime) : FileStore where
  nodes := OrderedMap.ofList [([path], .file (.text text) time)]

def outputOf (text : String) : FileStore := { fileAt "out" text 0 with clock := 1 }

private theorem plain_inToOut : Plain inToOut.name := by
  intro c hc
  obtain rfl : c = 'z' := List.mem_singleton.mp hc
  decide

/-- A name below the zone is read back. -/
theorem written_zone_reads_back_www :
    inToOut.state.readInput inToOut.key (fileAt "in" "@ SOA m h 7\nwww A 192.0.2.1" 1) =
      .ok (.fresh, inToOutWith ["www.z", "z"]) ∧
    FileStore.writeOutput {} inToOut (inToOutWith ["www.z", "z"]) =
      (.ok (), outputOf "; z. signed, serial 7\n$TTL 0\nwww.z.\nz.\n") ∧
    ∃ text back, (outputOf "; z. signed, serial 7\n$TTL 0\nwww.z.\nz.\n").readText ⟨"out"⟩ = .ok text ∧
      ZoneText.read "z" text = .ok back ∧ back.names = .ofMembers ["www.z", "z"] := by
  have hread : inToOut.state.readInput inToOut.key (fileAt "in" "@ SOA m h 7\nwww A 192.0.2.1" 1) =
      .ok (.fresh, inToOutWith ["www.z", "z"]) := rfl
  have hwrite : FileStore.writeOutput {} inToOut (inToOutWith ["www.z", "z"]) =
      (.ok (), outputOf "; z. signed, serial 7\n$TTL 0\nwww.z.\nz.\n") := rfl
  obtain ⟨text, back, htext, hback, -, -, hnames⟩ :=
    written_zone_reads_back rfl plain_inToOut (Nat.zero_le _) hread hwrite
  exact ⟨hread, hwrite, text, back, htext, hback, hnames.mpr (by decide)⟩

/-- A name below the zone that begins with a dollar sign is written, and not read back. It can be
read because a parenthesis comes before it. -/
theorem dollar_name_lost :
    inToOut.state.readInput inToOut.key (fileAt "in" "@ SOA m h 7\n( $x A 192.0.2.1" 1) =
      .ok (.fresh, inToOutWith ["$x.z", "z"]) ∧
    FileStore.writeOutput {} inToOut (inToOutWith ["$x.z", "z"]) =
      (.ok (), outputOf "; z. signed, serial 7\n$TTL 0\n$x.z.\nz.\n") ∧
    ¬ ∃ text back, (outputOf "; z. signed, serial 7\n$TTL 0\n$x.z.\nz.\n").readText ⟨"out"⟩ = .ok text ∧
      ZoneText.read "z" text = .ok back ∧ back.names = .ofMembers ["$x.z", "z"] := by
  refine ⟨rfl, rfl, ?_⟩
  rintro ⟨text, back, htext, hback, hnames⟩
  have hout : (outputOf "; z. signed, serial 7\n$TTL 0\n$x.z.\nz.\n").readText ⟨"out"⟩ =
      .ok "; z. signed, serial 7\n$TTL 0\n$x.z.\nz.\n" := rfl
  obtain rfl := Except.ok.inj (hout.symm.trans htext)
  have hread : ZoneText.read "z" "; z. signed, serial 7\n$TTL 0\n$x.z.\nz.\n" =
      .ok ⟨.ofMembers ["z"], none, some 0⟩ := rfl
  obtain rfl := Except.ok.inj (hread.symm.trans hback)
  exact absurd (congrArg OrderedSet.members hnames) (by decide)

end Zone

end ZoneSigning
