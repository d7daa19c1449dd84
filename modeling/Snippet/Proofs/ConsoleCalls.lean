import Mathlib.Algebra.Ring.Nat
import Snippet.Proofs.Persistence
import Snippet.Proofs.Timeout

/-!
The law of the transcript. The console is called to write a line to one of its channels or to show a line
that was read, and every call adds its line and then a newline. However many calls there are, the transcript
consists of the texts that they add up to the first one with which it would grow beyond its limit.
-/

namespace Snippet.Script

inductive ConsoleCall where
  | write (channel : Channel) (text : String)
  /-- Shows a line of the standard input. -/
  | echo (line : String)

def ConsoleCall.texts : ConsoleCall → List String
  | .write _ text => [text, "\n"]
  | .echo line => [line, "\n"]

def totalSize (texts : List String) : Nat := (texts.map String.utf8ByteSize).sum

@[simp] theorem totalSize_nil : totalSize [] = 0 := rfl

@[simp] theorem totalSize_cons (text : String) (texts : List String) :
    totalSize (text :: texts) = text.utf8ByteSize + totalSize texts :=
  List.sum_cons

theorem utf8ByteSize_join (texts : List String) :
    (String.join texts).utf8ByteSize = totalSize texts := by
  induction texts with
  | nil => rfl
  | cons text texts ih => rw [String.join_cons, String.utf8ByteSize_append, ih, totalSize_cons]

namespace Transcript

def after (t : Transcript) : ConsoleCall → Transcript
  | .write _ text => t.pushLine text
  | .echo line => t.pushLine line

def afterCalls (t : Transcript) (calls : List ConsoleCall) : Transcript := calls.foldl after t

def pushAll (t : Transcript) (texts : List String) : Transcript := texts.foldl push t

theorem pushAll_append (t : Transcript) (texts texts' : List String) :
    t.pushAll (texts ++ texts') = (t.pushAll texts).pushAll texts' :=
  List.foldl_append

/-- Calls come to the texts that they add. -/
theorem afterCalls_eq (t : Transcript) (calls : List ConsoleCall) :
    t.afterCalls calls = t.pushAll (calls.flatMap ConsoleCall.texts) := by
  induction calls generalizing t with
  | nil => rfl
  | cons call calls ih =>
    rw [List.flatMap_cons, pushAll_append]
    cases call with
    | write channel text => exact ih (t.pushLine text)
    | echo line => exact ih (t.pushLine line)

/-- A transcript that has been cut off takes nothing more. -/
theorem pushAll_of_truncated {t : Transcript} (h : t.truncated = true) (texts : List String) :
    t.pushAll texts = t := by
  induction texts with
  | nil => rfl
  | cons text texts ih =>
    have hpush : t.push text = t := by
      unfold push
      rw [if_pos h]
    change (t.push text).pushAll texts = t
    rw [hpush, ih]

theorem extends_pushAll (t : Transcript) (texts : List String) : (t.pushAll texts).Extends t := by
  induction texts generalizing t with
  | nil => exact extends_refl t
  | cons text texts ih => exact extends_trans (extends_push t text) (ih (t.push text))

def fitting (used : Nat) : List String → List String
  | [] => []
  | text :: rest =>
    if limit < used + text.utf8ByteSize then []
    else text :: fitting (used + text.utf8ByteSize) rest

/-- A transcript that has not been cut off takes the texts up to the first one that does not fit, in whose
place it takes the notice. -/
theorem pushAll_eq {t : Transcript} (h : t.truncated = false) (texts : List String) :
    t.pushAll texts =
      if fitting t.text.utf8ByteSize texts = texts then ⟨t.text ++ String.join texts, false⟩
      else ⟨t.text ++ String.join (fitting t.text.utf8ByteSize texts) ++ notice, true⟩ := by
  induction texts generalizing t with
  | nil =>
    obtain ⟨text, truncated⟩ := t
    subst h
    simp [pushAll, fitting]
  | cons text rest ih =>
    change (t.push text).pushAll rest = _
    by_cases hfull : limit < t.text.utf8ByteSize + text.utf8ByteSize
    -- The first text does not fit: the notice takes its place, and nothing follows.
    · have hpush : t.push text = ⟨t.text ++ notice, true⟩ := by
        unfold push
        rw [if_neg (by simp [h]), if_pos hfull]
      have hfitting : fitting t.text.utf8ByteSize (text :: rest) = [] := if_pos hfull
      rw [hpush, pushAll_of_truncated rfl, hfitting, if_neg (by simp), String.join_nil,
        String.append_empty]
    -- It fits, and those after it find so much more of the room used.
    · have hpush : t.push text = ⟨t.text ++ text, false⟩ := by
        unfold push
        rw [if_neg (by simp [h]), if_neg hfull, h]
      have hfitting : fitting t.text.utf8ByteSize (text :: rest) =
          text :: fitting (t.text ++ text).utf8ByteSize rest := by
        rw [String.utf8ByteSize_append]
        exact if_neg hfull
      rw [hpush, ih rfl, hfitting]
      simp only [List.cons.injEq, true_and, String.join_cons, String.append_assoc]

/-- The longest list of texts with which others begin that stays within the limit at every one of its
texts. -/
structure IsLongestFitting (kept texts : List String) : Prop where
  begins : kept <+: texts
  fits : ∀ part, part <+: kept → totalSize part ≤ limit
  longest : ∀ part, part <+: texts → (∀ part', part' <+: part → totalSize part' ≤ limit) →
    part <+: kept

theorem fitting_begins (used : Nat) (texts : List String) : fitting used texts <+: texts := by
  induction texts generalizing used with
  | nil => exact List.prefix_rfl
  | cons text rest ih =>
    unfold fitting
    split
    · exact List.nil_prefix
    · exact List.cons_prefix_cons.mpr ⟨rfl, ih _⟩

/-- However much of the texts is taken, it does not go beyond the limit. -/
theorem fitting_fits {used : Nat} (hused : used ≤ limit) (texts : List String) {part : List String}
    (hpart : part <+: fitting used texts) : used + totalSize part ≤ limit := by
  induction texts generalizing used part with
  | nil =>
    obtain rfl := List.prefix_nil.mp hpart
    exact hused
  | cons text rest ih =>
    unfold fitting at hpart
    split at hpart
    · obtain rfl := List.prefix_nil.mp hpart
      exact hused
    · rename_i hroom
      cases part with
      | nil => exact hused
      | cons text' part =>
        obtain ⟨rfl, hpart⟩ := List.cons_prefix_cons.mp hpart
        have hrest := ih (Nat.le_of_not_lt hroom) hpart
        rw [totalSize_cons]
        omega

/-- No longer part of the texts stays within the limit. -/
theorem fitting_longest (used : Nat) (texts : List String) {part : List String}
    (hpart : part <+: texts) (hfits : ∀ part', part' <+: part → used + totalSize part' ≤ limit) :
    part <+: fitting used texts := by
  induction texts generalizing used part with
  | nil => exact hpart
  | cons text rest ih =>
    cases part with
    | nil => exact List.nil_prefix
    | cons text' part =>
      obtain ⟨rfl, hbegins⟩ := List.cons_prefix_cons.mp hpart
      -- The first text fits by itself, and those after it fit into the room that it leaves.
      have hfirst := hfits [text'] (List.cons_prefix_cons.mpr ⟨rfl, List.nil_prefix⟩)
      rw [totalSize_cons, totalSize_nil, Nat.add_zero] at hfirst
      unfold fitting
      rw [if_neg (Nat.not_lt_of_le hfirst)]
      refine List.cons_prefix_cons.mpr ⟨rfl, ih _ hbegins fun part' hpart' => ?_⟩
      have hnext := hfits (text' :: part') (List.cons_prefix_cons.mpr ⟨rfl, hpart'⟩)
      rw [totalSize_cons] at hnext
      omega

theorem fitting_isLongest (texts : List String) : IsLongestFitting (fitting 0 texts) texts where
  begins := fitting_begins 0 texts
  fits part hpart := by simpa using fitting_fits (Nat.zero_le limit) texts hpart
  longest part hpart hfits := fitting_longest 0 texts hpart (by simpa using hfits)

/-- From the empty transcript all texts are taken that fit, and the notice if there is another one. -/
theorem pushAll_empty (texts : List String) :
    pushAll {} texts =
      ⟨String.join (fitting 0 texts) ++ if fitting 0 texts = texts then "" else notice,
        decide (fitting 0 texts ≠ texts)⟩ := by
  have h := pushAll_eq (t := {}) rfl texts
  rw [show ({} : Transcript).text.utf8ByteSize = 0 from rfl] at h
  rw [h]
  split
  · rename_i hall
    simp [hall]
  · rename_i hsome
    simp [hsome]

end Transcript

namespace Outside

def consoleCalls (o : Outside) : Command → List ConsoleCall
  | .print channel line => [.write channel line]
  | .prompt => o.stdin.pop.1.toList.map .echo
  | _ => []

/-- A command changes the transcript by the console calls that it comes to, and in no other way. -/
theorem after_transcript (o : Outside) (c : Command) :
    (o.after c).transcript = o.transcript.afterCalls (o.consoleCalls c) := by
  cases c with
  | prompt =>
    change o.afterPrompt.transcript = o.transcript.afterCalls (o.stdin.pop.1.toList.map .echo)
    unfold afterPrompt
    split
    · rename_i hpop
      rw [hpop]
      rfl
    · rename_i hpop
      rw [hpop]
      rfl
  | _ => rfl

/-- Whatever a history leaves in the transcript, it leaves by calls to the console. -/
theorem run_transcript (o : Outside) (history : List Command) :
    ∃ calls, (o.run history).transcript = o.transcript.afterCalls calls := by
  induction history generalizing o with
  | nil => exact ⟨[], rfl⟩
  | cons c history ih =>
    obtain ⟨calls, hcalls⟩ := ih (o.after c)
    refine ⟨o.consoleCalls c ++ calls, ?_⟩
    rw [run_cons, hcalls, after_transcript]
    exact List.foldl_append.symm

end Outside

/-- The law of the transcript, for calls to the console in any order and on any channels: it holds the
longest list of texts, as the calls add them, of which no part is beyond the limit, and then the notice once
if there is a text that did not fit. It is not longer than the limit and the notice, what it holds at any
moment it holds ever after, and once it has been cut off nothing is added. The transcript of a run is made by
such calls. -/
theorem transcript_holds_what_fits (calls : List ConsoleCall) :
    let texts := calls.flatMap ConsoleCall.texts
    let t := Transcript.afterCalls {} calls
    (∃ kept, Transcript.IsLongestFitting kept texts ∧
      t.text = String.join kept ++ (if kept = texts then "" else Transcript.notice) ∧
      (t.truncated = true ↔ kept ≠ texts)) ∧
    t.text.utf8ByteSize ≤ Transcript.limit + Transcript.notice.utf8ByteSize ∧
    (∀ part part', part <+: part' → part' <+: texts →
      (Transcript.pushAll {} part').Extends (Transcript.pushAll {} part)) ∧
    (∀ later, (Transcript.afterCalls {} (calls ++ later)).Extends t) ∧
    (t.truncated = true → ∀ later, Transcript.afterCalls {} (calls ++ later) = t) ∧
    Transcript.limit = 2 ^ 20 ∧
    ∀ statements stdin n, ∃ made,
      (finalState (Run.program statements (Machine.start stdin n))).transcript =
        Transcript.afterCalls {} made := by
  intro texts t
  have ht : t = Transcript.pushAll {} texts := Transcript.afterCalls_eq {} calls
  have hclosed := ht.trans (Transcript.pushAll_empty texts)
  have hlongest := Transcript.fitting_isLongest texts
  -- Later calls put their texts behind those that are there.
  have hlater (later : List ConsoleCall) : Transcript.afterCalls {} (calls ++ later) =
      t.pushAll (later.flatMap ConsoleCall.texts) := by
    rw [← Transcript.afterCalls_eq]
    exact List.foldl_append
  refine ⟨⟨Transcript.fitting 0 texts, hlongest, ?_, ?_⟩, ?_, ?_, ?_, ?_, rfl, ?_⟩
  · rw [hclosed]
  · rw [hclosed]
    exact decide_eq_true_iff
  · have hkept := hlongest.fits _ List.prefix_rfl
    rw [hclosed]
    change (String.join _ ++ _).utf8ByteSize ≤ _
    rw [String.utf8ByteSize_append, utf8ByteSize_join]
    split
    · rw [String.utf8ByteSize_empty]
      omega
    · omega
  · rintro part part' ⟨rest, rfl⟩ -
    rw [Transcript.pushAll_append]
    exact Transcript.extends_pushAll _ rest
  · intro later
    rw [hlater later]
    exact Transcript.extends_pushAll t _
  · intro htruncated later
    rw [hlater later]
    exact Transcript.pushAll_of_truncated htruncated _
  · intro statements stdin n
    -- Whatever a run makes of its calls is a history of them.
    obtain ⟨history, -, hhistory⟩ := (program_reaches statements (Machine.start stdin n)).final.outside
    obtain ⟨made, hmade⟩ := (Machine.start stdin n).outside.run_transcript history
    refine ⟨made, ?_⟩
    rw [← hhistory] at hmade
    exact hmade

end Snippet.Script
