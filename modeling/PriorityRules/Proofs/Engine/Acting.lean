import PriorityRules.Engine
import PriorityRules.Proofs.Evaluation.Resolution
import PriorityRules.Proofs.Reading.References

/-! # What engines do in a context

Acting, acting with a report and explaining evaluate the same ruleset in the same situation. They
share their fault or their decision; explaining alone leaves the context as it was in any case.
-/

namespace PriorityRules

variable {C A M R : Type}

namespace Engine

open Evaluation

variable (e : Engine C A M) (context : C)

def situation : Situation A :=
  ⟨e.active.tags, (e.host.holds · context), e.host.numbers context⟩

def perform (effects : List (Effect M)) : C :=
  effects.foldl (fun c effect => e.host.perform effect.change c) context

theorem evaluate_of_error {fault : EvaluationFault} {progress : Progress A}
    (h : e.active.evaluate e.host.slots (e.host.holds · context) (e.host.numbers context) =
      (.error fault, progress)) (go : Decision A M → C × R) :
    (e.evaluate context go).result = .error fault ∧ (e.evaluate context go).context = context := by
  rw [Engine.evaluate, h]
  exact ⟨rfl, rfl⟩

theorem evaluate_of_ok {decision : Decision A M} {progress : Progress A}
    (h : e.active.evaluate e.host.slots (e.host.holds · context) (e.host.numbers context) =
      (.ok decision, progress)) (go : Decision A M → C × R) :
    (e.evaluate context go).result = .ok (go decision).2 ∧
      (e.evaluate context go).context = (go decision).1 := by
  rw [Engine.evaluate, h]
  exact ⟨rfl, rfl⟩

/-- With a ruleset that has been read, the three ways to evaluate either stop with the same fault
and change nothing, or they do what the rules call for: the report is the same, the effects are
applied in the order of their slots, and explaining applies none. -/
theorem evaluations_follow_first_rules {V : Vocabulary A M} {text : String}
    (h : (V.read text).outcome = .ok e.active) :
    (∃ fault,
      ((e.act context).result = .error fault ∧ (e.act context).context = context) ∧
      ((e.actWithReport context).result = .error fault ∧
        (e.actWithReport context).context = context) ∧
      (e.explain context).result = .error fault ∧ (e.explain context).context = context) ∨
    ∃ report effects,
      Resolves (e.situation context) e.host.slots e.active.rules report effects ∧
      ((e.act context).result = .ok () ∧ (e.act context).context = e.perform context effects) ∧
      ((e.actWithReport context).result = .ok report ∧
        (e.actWithReport context).context = e.perform context effects) ∧
      (e.explain context).result = .ok report ∧ (e.explain context).context = context := by
  rcases hrun : e.active.evaluate e.host.slots (e.host.holds · context) (e.host.numbers context)
    with ⟨fault | decision, progress⟩
  · left
    exact ⟨fault, e.evaluate_of_error context hrun _, e.evaluate_of_error context hrun _,
      e.evaluate_of_error context hrun _⟩
  · right
    have hresolves := evaluate_resolves e.active (Vocabulary.closed_of_read h) _ _ _ hrun
    have happly : decision.board.apply e.host.perform context =
        e.perform context decision.board.effects := Board.apply_eq _ _ _
    refine ⟨decision.report, decision.board.effects, hresolves, ?_, ?_, ?_⟩
    · rw [← happly]
      exact e.evaluate_of_ok context hrun _
    · rw [← happly]
      exact e.evaluate_of_ok context hrun _
    · exact e.evaluate_of_ok context hrun _

def houseText : String :=
  "3 %night -> bright ring\n2 !%night rain -> dim off\n2 -> dark\n1 -> ring glow\n" ++
    "night [ moon, stars ]"

/-- A house with a lamp in slot 1, a bell in slot 2 and nothing in slot 3. A context is what there
is to see. -/
def house : Engine (List String) String String where
  host :=
    { marks := []
      fallback := some .ok
      effects := fun word => .ok [⟨if word = "ring" then 2 else 1, word⟩]
      declared := {}
      holds := fun sight context => sight ∈ context
      perform := fun change context => context ++ [change]
      numbers := fun _ => []
      slots := { ids := [1, 2, 3] }
      defaultRules := "" }
  active :=
    { rules :=
        [⟨3, 1, [.tag 0], [⟨1, "bright"⟩, ⟨2, "ring"⟩]⟩,
          ⟨2, 2, [.not (.tag 0), .atom "rain"], [⟨1, "dim"⟩, ⟨1, "off"⟩]⟩,
          ⟨2, 3, [], [⟨1, "dark"⟩]⟩, ⟨1, 4, [], [⟨2, "ring"⟩, ⟨1, "glow"⟩]⟩]
      tags := [⟨"night", [[.atom "moon"], [.atom "stars"]]⟩]
      source := some houseText }

/-- In the rain the first rule fails, the second one gets the lamp, the third one is passed over,
and the fourth one gets the bell. -/
theorem house_follows_first_rules :
    (house.host.read houseText).outcome = .ok house.active ∧
      ∃ report effects,
        Resolves (house.situation ["rain"]) house.host.slots house.active.rules report effects ∧
        report = ⟨[⟨1, 2, 2⟩, ⟨2, 1, 4⟩], 3⟩ ∧
        (house.act ["rain"]).context = house.perform ["rain"] effects ∧
        (house.act ["rain"]).context = ["rain", "dim", "ring"] ∧
        (house.explain ["rain"]).result = .ok report ∧
        (house.explain ["rain"]).context = ["rain"] := by
  have hread : (house.host.read houseText).outcome = .ok house.active := by rfl
  have hact : (house.act ["rain"]).result = .ok () ∧
      (house.act ["rain"]).context = ["rain", "dim", "ring"] := by
    constructor <;> cbv
  have hreport : (house.explain ["rain"]).result = .ok ⟨[⟨1, 2, 2⟩, ⟨2, 1, 4⟩], 3⟩ := by cbv
  rcases house.evaluations_follow_first_rules ["rain"] hread with
    ⟨fault, ⟨hfault, _⟩, _⟩ | ⟨report, effects, hresolves, ⟨_, hcontext⟩, _, hexplain, hkept⟩
  · rw [hact.1] at hfault
    cases hfault
  · cases hreport.symm.trans hexplain
    exact ⟨hread, _, effects, hresolves, rfl, hcontext, hact.2, hreport, hkept⟩

end Engine

end PriorityRules
