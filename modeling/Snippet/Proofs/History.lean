import Snippet.Script.Machine

/-!
What a run does around its store. It prints, reads lines, draws random numbers, sets timers, takes them
back and comes to their times. Each of these is a command, and a list of commands is a history: what a run
leaves behind outside of its store is what its history makes of what was there at the beginning.
-/

namespace Snippet.Script

def Transcript.Extends (t' t : Transcript) : Prop := ∃ rest, t'.text = t.text ++ rest

namespace Transcript

theorem extends_refl (t : Transcript) : t.Extends t := ⟨"", String.append_empty.symm⟩

theorem extends_trans {t t' t'' : Transcript} (h : t'.Extends t) (h' : t''.Extends t') :
    t''.Extends t := by
  obtain ⟨rest, hrest⟩ := h
  obtain ⟨rest', hrest'⟩ := h'
  refine ⟨rest ++ rest', ?_⟩
  rw [hrest', hrest, String.append_assoc]

theorem extends_push (t : Transcript) (text : String) : (t.push text).Extends t := by
  unfold push
  split
  · exact extends_refl t
  · split
    · exact ⟨notice, rfl⟩
    · exact ⟨text, rfl⟩

theorem extends_pushLine (t : Transcript) (line : String) : (t.pushLine line).Extends t :=
  extends_trans (extends_push t line) (extends_push _ "\n")

end Transcript

structure Outside where
  transcript : Transcript
  stdin : Stdin
  timers : Timers
  random : Random

def Machine.outside (m : Machine) : Outside := ⟨m.transcript, m.stdin, m.timers, m.random⟩

inductive Command where
  | print (channel : Channel) (line : String)
  /-- Reads a line, which the transcript shows as well. -/
  | prompt
  | draw
  | schedule (callback : Value) (delay : Float) (arguments : List Value) (repeated : Bool)
  | cancel (id : UInt32)
  /-- Comes to the time of the first timer. -/
  | fire

/-- A command that the script itself gives by a call. Timers come to their times only between calls. -/
def Command.IsCall : Command → Prop
  | .fire => False
  | _ => True

def Command.setsTimer : Command → Bool
  | .schedule _ _ _ _ => true
  | _ => false

def Timers.fire (ts : Timers) : Timers :=
  match ts.next? with
  | some (_, ts) => ts
  | none => ts

def Timers.after (ts : Timers) : Command → Timers
  | .schedule callback delay arguments repeated => (ts.schedule callback delay arguments repeated).2
  | .cancel id => ts.cancel id
  | .fire => ts.fire
  | _ => ts

namespace Outside

def afterPrompt (o : Outside) : Outside :=
  match o.stdin.pop with
  | (some line, stdin) => { o with transcript := o.transcript.pushLine line, stdin }
  | (none, _) => o

def after (o : Outside) (c : Command) : Outside :=
  match c with
  | .print _ line => { o with transcript := o.transcript.pushLine line }
  | .prompt => o.afterPrompt
  | .draw => { o with random := o.random.next.2 }
  | c => { o with timers := o.timers.after c }

def run (o : Outside) (history : List Command) : Outside := history.foldl after o

@[simp] theorem run_nil (o : Outside) : o.run [] = o := rfl

@[simp] theorem run_cons (o : Outside) (c : Command) (cs : List Command) :
    o.run (c :: cs) = (o.after c).run cs := rfl

theorem run_append (o : Outside) (cs cs' : List Command) :
    o.run (cs ++ cs') = (o.run cs).run cs' :=
  List.foldl_append

theorem afterPrompt_nil {o : Outside} (h : o.stdin.lines = []) : o.afterPrompt = o := by
  unfold afterPrompt Stdin.pop
  rw [h]

theorem afterPrompt_cons {o : Outside} {line : String} {rest : List String}
    (h : o.stdin.lines = line :: rest) :
    o.afterPrompt = { o with transcript := o.transcript.pushLine line, stdin := ⟨rest⟩ } := by
  unfold afterPrompt Stdin.pop
  rw [h]

theorem afterPrompt_timers (o : Outside) : o.afterPrompt.timers = o.timers := by
  unfold afterPrompt
  split <;> rfl

theorem after_timers (o : Outside) (c : Command) : (o.after c).timers = o.timers.after c := by
  cases c with
  | prompt => exact o.afterPrompt_timers
  | _ => rfl

/-- The timers that a history leaves depend on nothing else. -/
theorem run_timers (o : Outside) (cs : List Command) :
    (o.run cs).timers = cs.foldl Timers.after o.timers := by
  induction cs generalizing o with
  | nil => rfl
  | cons c cs ih => rw [run_cons, ih, after_timers, List.foldl_cons]

theorem afterPrompt_extends (o : Outside) : o.afterPrompt.transcript.Extends o.transcript := by
  unfold afterPrompt
  split
  · exact Transcript.extends_pushLine _ _
  · exact Transcript.extends_refl _

theorem after_extends (o : Outside) (c : Command) : (o.after c).transcript.Extends o.transcript := by
  cases c with
  | print channel line => exact Transcript.extends_pushLine _ _
  | prompt => exact o.afterPrompt_extends
  | _ => exact Transcript.extends_refl _

/-- Whatever is done, what has been printed stays. -/
theorem run_extends (o : Outside) (cs : List Command) :
    (o.run cs).transcript.Extends o.transcript := by
  induction cs generalizing o with
  | nil => exact Transcript.extends_refl _
  | cons c cs ih => exact Transcript.extends_trans (o.after_extends c) (ih (o.after c))

def Leads (P : Command → Prop) (o o' : Outside) : Prop :=
  ∃ cs : List Command, (∀ c ∈ cs, P c) ∧ o' = o.run cs

namespace Leads

variable {P P' : Command → Prop} {o o' o'' : Outside}

theorem refl (o : Outside) : Leads P o o := ⟨[], by simp, rfl⟩

theorem command {c : Command} (hc : P c) (o : Outside) : Leads P o (o.after c) :=
  ⟨[c], by simpa using hc, rfl⟩

theorem trans (h : Leads P o o') (h' : Leads P o' o'') : Leads P o o'' := by
  obtain ⟨cs, hcs, rfl⟩ := h
  obtain ⟨cs', hcs', rfl⟩ := h'
  refine ⟨cs ++ cs', fun c hc => ?_, (o.run_append cs cs').symm⟩
  exact (List.mem_append.mp hc).elim (hcs c) (hcs' c)

theorem mono (h : Leads P o o') (hP : ∀ c, P c → P' c) : Leads P' o o' := by
  obtain ⟨cs, hcs, ho⟩ := h
  exact ⟨cs, fun c hc => hP c (hcs c hc), ho⟩

theorem transcript (h : Leads P o o') : o'.transcript.Extends o.transcript := by
  obtain ⟨cs, -, rfl⟩ := h
  exact o.run_extends cs

end Leads

end Outside

end Snippet.Script
