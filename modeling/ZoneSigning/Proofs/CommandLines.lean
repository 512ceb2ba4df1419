import ZoneSigning.Command
import ZoneSigning.Proofs.TextCuts

/-!
The language of commands as a whole: which lines are understood, what each of them asks for, and
that a command is understood as itself when it is written down. Lines count by their words, however
much white space stands around them.
-/
namespace ZoneSigning

namespace Command

def spelling : Command → List String
  | help => ["help"]
  | zones => ["zones"]
  | queue => ["queue"]
  | flush none => ["flush"]
  | flush (some zone) => ["flush", zone]
  | sign zone => ["sign", zone]
  | reload => ["reload"]
  | stop => ["stop"]
  | stats => ["stats"]

variable {line : String} {c c' : Command}

private theorem toList_injective : Function.Injective (Option.toList (α := String)) :=
  Function.LeftInverse.injective fun _ => Option.head?_toList

private theorem spelling_eq (c : Command) : c.spelling = c.verb :: c.zone?.toList := by
  cases c with
  | flush zone => cases zone <;> rfl
  | _ => rfl

private theorem ofWords_spelling (c : Command) : ofWords c.verb c.zone? = .ok c := by
  cases c <;> rfl

/-- Different commands are asked for by different words. -/
theorem spelling_injective : Function.Injective spelling := by
  intro c c' h
  rw [spelling_eq, spelling_eq] at h
  obtain ⟨hverb, hzone⟩ := List.cons.inj h
  have hwords := c'.ofWords_spelling
  rw [← hverb, ← toList_injective hzone, ofWords_spelling] at hwords
  exact Except.ok.inj hwords

private theorem ofWords_eq_ok_iff (verb : String) (word : Option String) :
    ofWords verb word = .ok c ↔ verb :: word.toList = c.spelling := by
  constructor
  · intro h
    unfold ofWords at h
    split at h <;> cases h
    case h_4 => cases word <;> rfl
    all_goals rfl
  · intro h
    rw [spelling_eq] at h
    obtain ⟨rfl, hword⟩ := List.cons.inj h
    rw [toList_injective hword]
    exact ofWords_spelling c

/-- The words of a line decide what it asks for. The case of the first one does not matter. -/
theorem parse_eq_ok_iff :
    parse line = .ok c ↔ (Text.words line).modifyHead Text.lower = c.spelling := by
  unfold parse
  split
  · next hwords => simp [hwords, spelling_eq]
  · next verb hwords =>
    rw [hwords]
    exact ofWords_eq_ok_iff _ none
  · next verb word hwords =>
    rw [hwords]
    exact ofWords_eq_ok_iff _ (some word)
  · next verb word extra rest hwords =>
    cases hzone : c.zone? <;> simp [hwords, spelling_eq, hzone]

private theorem lower_verb (c : Command) : Text.lower c.verb = c.verb := by
  cases c <;> dsimp only [verb] <;> decide

private theorem word_verb (c : Command) :
    c.verb.toList ≠ [] ∧ ∀ d ∈ c.verb.toList, ¬Text.isBlank d := by
  have hall : c.verb.toList ≠ [] ∧ c.verb.toList.all fun d => !Text.isBlank d := by
    cases c <;> dsimp only [verb] <;> decide
  simpa using hall

/-- A command is written with its words, if its zone is a word. -/
theorem words_text (hzone : ∀ zone ∈ c.zone?, zone.toList ≠ [] ∧ ∀ d ∈ zone.toList, ¬Text.isBlank d) :
    Text.words c.text = c.spelling := by
  obtain ⟨hne, hverb⟩ := c.word_verb
  have hnone : ∀ d ∈ ([] : List Char), Text.isBlank d := fun _ h => nomatch h
  rw [Text.words_eq_iff, text, spelling_eq]
  cases hc : c.zone? with
  | none => exact .last hnone hne hverb
  | some zone =>
    obtain ⟨hzone, hblank⟩ := hzone zone hc
    have hsplit : (c.verb ++ " " ++ zone).toList = [] ++ c.verb.toList ++ ' ' :: zone.toList := by
      simp [String.toList_append]
    have hrest : Text.HasWords ([' '] ++ zone.toList) [zone.toList] :=
      .last (List.forall_mem_singleton.mpr (by decide)) hzone hblank
    dsimp only
    rw [hsplit]
    exact .more hnone hne hverb (by decide) hrest

private theorem word_zone (h : parse line = .ok c) {zone : String} (hzone : zone ∈ c.zone?) :
    zone.toList ≠ [] ∧ ∀ d ∈ zone.toList, ¬Text.isBlank d := by
  have hwords := parse_eq_ok_iff.mp h
  rw [spelling_eq, Option.mem_def.mp hzone] at hwords
  have hline : Text.HasWords line.toList ((Text.words line).map String.toList) :=
    Text.words_eq_iff.mp rfl
  refine hline.word _ (List.mem_map_of_mem ?_)
  cases hsaid : Text.words line with
  | nil => simp [hsaid] at hwords
  | cons verb rest =>
    rw [hsaid] at hwords
    rw [(List.cons.inj hwords).2]
    simp

/-- A command that a line asks for is understood as itself when it is written down. -/
theorem parse_text (h : parse line = .ok c) : parse c.text = .ok c := by
  rw [parse_eq_ok_iff, words_text fun zone hzone => word_zone h hzone, spelling_eq,
    List.modifyHead_cons, lower_verb]

/-- A line is understood exactly if its words are those of a command, whatever the case of the first
one, and asks for that command then. Written down, the command is understood as itself. Two lines ask
for the same exactly if they have the same words, up to the case of the first one. -/
theorem lines_spell_commands (line : String) :
    (∀ c, parse line = .ok c ↔ ∃ ws : List String,
      Text.HasWords line.toList (ws.map String.toList) ∧ ws.modifyHead Text.lower = c.spelling) ∧
    (∀ c, parse line = .ok c → parse c.text = .ok c) ∧
    ∀ (line' : String) (c c' : Command) (ws ws' : List String),
      Text.HasWords line.toList (ws.map String.toList) →
      Text.HasWords line'.toList (ws'.map String.toList) →
      parse line = .ok c → parse line' = .ok c' →
      (c = c' ↔ ws.modifyHead Text.lower = ws'.modifyHead Text.lower) := by
  refine ⟨fun c => ?_, fun c => parse_text, fun line' c c' ws ws' hws hws' hc hc' => ?_⟩
  · simp only [← Text.words_eq_iff, exists_eq_left']
    exact parse_eq_ok_iff
  · rw [← Text.words_eq_iff] at hws hws'
    subst hws hws'
    rw [parse_eq_ok_iff.mp hc, parse_eq_ok_iff.mp hc', spelling_injective.eq_iff]

/-- Two lines for the same command, and what is made of both. -/
theorem lines_spell_commands_flush :
    parse "  FLUSH\tExample.com " = .ok (.flush (some "Example.com")) ∧
      parse (flush (some "Example.com")).text = .ok (.flush (some "Example.com")) ∧
      ["FLUSH", "Example.com"].modifyHead Text.lower =
        ["Flush", "Example.com"].modifyHead Text.lower := by
  have hline : parse "  FLUSH\tExample.com " = .ok (.flush (some "Example.com")) := by decide
  have hline' : parse "Flush Example.com" = .ok (.flush (some "Example.com")) := by decide
  obtain ⟨-, htext, hsame⟩ := lines_spell_commands "  FLUSH\tExample.com "
  refine ⟨hline, htext _ hline, ?_⟩
  have hwords : Text.HasWords "  FLUSH\tExample.com ".toList
      (["FLUSH", "Example.com"].map String.toList) := Text.words_eq_iff.mp (by decide)
  have hwords' : Text.HasWords "Flush Example.com".toList
      (["Flush", "Example.com"].map String.toList) := Text.words_eq_iff.mp (by decide)
  exact (hsame _ _ _ _ _ hwords hwords' hline hline').mp rfl

end Command

end ZoneSigning
