import PriorityRules.Proofs.Engine.History
import PriorityRules.Proofs.Evaluation.Bounds
import PriorityRules.Proofs.Reading.Denotation

/-! # The integrity of the active ruleset

A fresh engine has an empty ruleset, and every other one that becomes active has been read from a
text. The active ruleset is therefore grounded in a text at all times, and an evaluation never
looks for a tag that is not there.
-/

namespace PriorityRules

variable {C A M : Type}

open Reading

/-- The ruleset is grounded in its source, or in the empty text if it has none. -/
def Ruleset.Intact (V : Vocabulary A M) (r : Ruleset A M) : Prop :=
  r.Closed ∧ ∃ items, Layout 1 (Vocabulary.tokenLines (r.source.getD "")) items ∧
    Grounded V items r

theorem Ruleset.intact_empty {V : Vocabulary A M} : (Ruleset.empty : Ruleset A M).Intact V :=
  ⟨⟨List.forall_mem_nil _, List.forall_mem_nil _⟩, [], .done, grounded_empty⟩

theorem Vocabulary.intact_of_read {V : Vocabulary A M} {text : String} {r : Ruleset A M}
    (h : (V.read text).outcome = .ok r) : r.Intact V := by
  obtain ⟨items, hlayout, hgrounded⟩ := grounded_of_read h
  refine ⟨closed_of_read h, items, ?_, hgrounded⟩
  rw [source_of_read h]
  exact hlayout

namespace Engine

namespace World

variable {known : Recognition A M} {w : World C A M}

theorem intact_step (h : w.engine.active.Intact w.engine.host.toVocabulary)
    (operation : Operation C) :
    (w.step known operation).2.engine.active.Intact w.engine.host.toVocabulary := by
  have hturn : Turn known w operation _ _ _ := step_turn operation
  generalize (w.step known operation).1 = answer at hturn
  generalize (w.step known operation).2.engine.active = active at hturn ⊢
  generalize (w.step known operation).2.engine.revision = revision at hturn
  cases hturn with
  | kept hanswer => exact h
  | recognised hfile htext hknown => exact h
  | replaced htext hnew hread => exact Vocabulary.intact_of_read hread

theorem intact_after (h : w.engine.active.Intact w.engine.host.toVocabulary)
    (operations : List (Operation C)) :
    (w.after known operations).engine.active.Intact w.engine.host.toVocabulary := by
  induction operations generalizing w with
  | nil => exact h
  | cons operation rest ih =>
    have hstep : (w.step known operation).2.engine.active.Intact _ := intact_step h operation
    rw [← w.host_step known operation] at hstep ⊢
    exact ih hstep

/-- Whatever is done with a fresh engine while others change the files, the active ruleset is
grounded in its source. In no context and for no slots does it matter to an evaluation what would
happen if a tag were not there, and the rules that fill slots are rules of the ruleset. -/
theorem active_ruleset_intact {s : Setup C A M} {e : Engine C A M} (hbuild : s.build = .ok e)
    (known : Recognition A M) (files : FileTree) (operations : List (Operation C)) :
    let r := (after known ⟨e, files⟩ operations).engine.active
    (∃ items, Layout 1 (Vocabulary.tokenLines (r.source.getD "")) items ∧
      Grounded e.host.toVocabulary items r) ∧
    r.Closed ∧
    ∀ slots holds numbers,
      (∀ absent, r.evaluateChecked absent slots holds numbers =
        r.evaluate slots holds numbers) ∧
      ∀ d p, r.evaluate slots holds numbers = (.ok d, p) →
        ∀ cell ∈ d.board, ∀ w ∈ cell.winner, w.rule ∈ r.rules := by
  intro r
  have hstart : e.active.Intact e.host.toVocabulary := by
    rw [fresh_of_build hbuild]
    exact Ruleset.intact_empty
  obtain ⟨hclosed, hgrounded⟩ : r.Intact e.host.toVocabulary := intact_after hstart operations
  refine ⟨hgrounded, hclosed, fun slots holds numbers => ⟨fun absent => ?_, ?_⟩⟩
  · exact hclosed.evaluateChecked_eq absent slots holds numbers
  · exact fun d p hrun cell hcell w hwinner => hclosed.winner_mem hrun hcell hwinner

/-- A signboard that is given the number of the hour. -/
def dial : Setup String String String := { signs with names := ["hour"], numbers := fun _ => [9] }

def clock : Engine String String String :=
  { host := { dial with
      effects := fun text => .ok [⟨1, text⟩], declared := ⟨["hour"], List.nodup_singleton _⟩ } }

/-- The second text is refused, so that the ruleset is still the one of the first. -/
theorem clock_ruleset_intact :
    let r := (after (.byDigest id) ⟨clock, {}⟩
      [.load "2 (hour>=6) !%night -> wake\nnight [ dark, (hour<6) !%noon ]\nnoon [ bell ]",
        .load "1 %eve -> rest"]).engine.active
    dial.build = .ok clock ∧ r.tagNames = ["night", "noon"] ∧
      (∃ items, Layout 1 (Vocabulary.tokenLines
          "2 (hour>=6) !%night -> wake\nnight [ dark, (hour<6) !%noon ]\nnoon [ bell ]") items ∧
        Grounded clock.host.toVocabulary items r) ∧
      r.Closed ∧ ∀ absent, r.evaluateChecked absent clock.host.slots (fun _ => true) [9] =
        r.evaluate clock.host.slots (fun _ => true) [9] := by
  intro r
  have hbuild : dial.build = .ok clock := rfl
  obtain ⟨hgrounded, hclosed, hruns⟩ := active_ruleset_intact hbuild (.byDigest id) {}
    [.load "2 (hour>=6) !%night -> wake\nnight [ dark, (hour<6) !%noon ]\nnoon [ bell ]",
      .load "1 %eve -> rest"]
  refine ⟨hbuild, ?_, ?_, hclosed, (hruns _ _ _).1⟩
  · rfl
  · exact hgrounded

end World

end Engine

end PriorityRules
