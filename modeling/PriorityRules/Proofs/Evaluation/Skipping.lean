import PriorityRules.Proofs.Evaluation.Bookkeeping
import PriorityRules.Proofs.Evaluation.Cycles

/-! # Which rules need a test

Two scans of the same rules may test different ones, so that they find out about tags at different
rules. What either of them finds out is how the tags are read. The one that tests fewer rules
therefore answers wherever the other one does, and in the same way; and the rules that it leaves
out add nothing to its books.
-/

namespace PriorityRules

variable {A M B B' : Type}

namespace Evaluation

/-- Neither scan stops early. The second one tests only rules that the first one tests, and what it
leaves out keeps the books related. -/
structure Bookkeeping.Spares (k : Bookkeeping B A M) (related : B → B' → Prop)
    (k' : Bookkeeping B' A M) : Prop where
  tests : ∀ {books books' rule}, related books books' → k'.tests books' rule = true →
    k.tests books rule = true
  both : ∀ {books books'} rule, related books books' →
    related (k.claim books rule) (k'.claim books' rule)
  alone : ∀ {books books' rule}, related books books' → k'.tests books' rule = false →
    related (k.claim books rule) books'
  endless : ∀ books, k.ends books = false
  endless' : ∀ books, k'.ends books = false

/-- If the scan that tests more rules comes to its end, then so does the one that spares some. -/
theorem Bookkeeping.Spares.scanWith_ok {k : Bookkeeping B A M} {related : B → B' → Prop}
    {k' : Bookkeeping B' A M} (h : k.Spares related k') {S : Situation A} {n : Nat}
    {rules : List (Rule A M)} (hcovers : Covers n S rules) {p p' : Progress A}
    (hp : p.Sound (S.padded n)) (hp' : p'.Sound (S.padded n)) {books final : B} {books' : B'}
    (hbooks : related books books') {index count count' total : Nat} (hcount : count' ≤ count)
    (hrun : (scanWith k S index rules (books, count) p).1 = .ok (final, total)) :
    ∃ final' total', (scanWith k' S index rules (books', count') p').1 = .ok (final', total') ∧
      related final final' ∧ total' ≤ total := by
  induction rules generalizing index books books' count count' p p' with
  | nil =>
    cases hrun
    exact ⟨books', count', rfl, hbooks, hcount⟩
  | cons rule rest ih =>
    cases htests : k.tests books rule with
    | false =>
      have htests' : k'.tests books' rule = false :=
        Bool.eq_false_iff.mpr fun htrue => by simp [h.tests hbooks htrue] at htests
      rw [scanWith_of_untested htests] at hrun
      rw [scanWith_of_untested htests']
      exact ih hcovers.tail hp hp' hbooks hcount hrun
    | true =>
      rcases hfirst : testAll S (decideTag S []) (.condition index) 0 rule.conditions p with
        ⟨fault | truth, after⟩
      · rw [scanWith_of_error htests hfirst] at hrun
        cases hrun
      -- the answer is a reading of the conditions, which the other scan would get as well
      obtain ⟨hreads, hafter⟩ := reads_of_testAll hcovers.tags hcovers.head hp hfirst
      obtain ⟨after', hfirst', hafter'⟩ :=
        testAll_of_reads (p := p') hcovers.tags hcovers.head hp' hreads
      cases truth with
      | false =>
        rw [scanWith_of_false htests hfirst] at hrun
        cases htests' : k'.tests books' rule with
        | false =>
          rw [scanWith_of_untested htests']
          exact ih hcovers.tail hafter hp' hbooks (by omega) hrun
        | true =>
          rw [scanWith_of_false htests' hfirst']
          exact ih hcovers.tail hafter hafter' hbooks (by omega) hrun
      | true =>
        simp only [scanWith_of_true htests hfirst, h.endless, Bool.false_eq_true, if_false] at hrun
        cases htests' : k'.tests books' rule with
        | false =>
          rw [scanWith_of_untested htests']
          exact ih hcovers.tail hafter hp' (h.alone hbooks htests') (by omega) hrun
        | true =>
          simp only [scanWith_of_true htests' hfirst', h.endless', Bool.false_eq_true, if_false]
          exact ih hcovers.tail hafter hafter' (h.both rule hbooks) (by omega) hrun

/-- The rules that a scan passes over would leave its board as it is. -/
theorem thorough_spares_persistent :
    (Bookkeeping.thorough (A := A) (M := M)).Spares Eq .persistent where
  tests _ _ := rfl
  both rule h := congrArg (Board.claim · rule) h
  alone h hwants := by
    subst h
    exact Board.claim_of_unwanted hwants
  endless _ := rfl
  endless' _ := rfl

/-- Passing over rules and stopping early do no harm. An evaluation ends with the same winners as
one that tests every rule and never stops, whenever that one ends, and fails with a circular
reference only where that one does too. Not to stop when the board is full makes no difference at
all, nor does it matter that the board is taken for full when there are as many winners as expected
slots. -/
theorem skipping_and_stopping_sound (r : Ruleset A M) (slots : Slots) (holds : A → Bool)
    (numbers : List Float) :
    (∀ board tested,
      (r.evaluateWith .thorough (.ofSlots slots) holds numbers).1 = .ok (board, tested) →
        ∃ examined, (r.evaluate slots holds numbers).1 = .ok ⟨board, examined⟩) ∧
    (∀ path, (r.evaluate slots holds numbers).1 = .error (.circularTag path) →
      ∃ other, (r.evaluateWith .thorough (.ofSlots slots) holds numbers).1 =
        .error (.circularTag other)) ∧
    r.evaluateWith .persistent (.ofSlots slots) holds numbers =
      Prod.map (Except.map Decision.books) id (r.evaluate slots holds numbers) ∧
    Prod.map (Except.map (Prod.map Buffer.board id)) id
        (r.evaluateWith .counting (.ofSlots slots) holds numbers) =
      Prod.map (Except.map Decision.books) id (r.evaluate slots holds numbers) := by
  obtain ⟨n, hwithin⟩ := exists_within r.predicates
  have hcovers := covers_of_within hwithin holds numbers
  have hends : ∀ board tested,
      (r.evaluateWith .thorough (.ofSlots slots) holds numbers).1 = .ok (board, tested) →
        ∃ examined, (r.evaluate slots holds numbers).1 = .ok ⟨board, examined⟩ := by
    intro board tested hrun
    obtain ⟨_, examined, hpersistent, rfl, -⟩ := thorough_spares_persistent.scanWith_ok hcovers
      Progress.Sound.empty Progress.Sound.empty rfl (Nat.le_refl 0) hrun
    exact ⟨examined, Ruleset.evaluate_eq_ok_iff.mpr hpersistent⟩
  refine ⟨hends, fun path hpath => ?_, r.evaluateWith_persistent .., r.evaluateWith_counting ..⟩
  rcases hrun : (r.evaluateWith .thorough (.ofSlots slots) holds numbers).1 with
    ⟨⟨other⟩⟩ | ⟨board, tested⟩
  · exact ⟨other, rfl⟩
  · obtain ⟨examined, hok⟩ := hends board tested hrun
    rw [hpath] at hok
    cases hok

-- The circle behind the last rule needed is met only by the scan that goes on.
example :
    let r : Ruleset Bool Unit := ⟨[⟨1, 1, [], [⟨0, ()⟩]⟩, ⟨0, 2, [.tag 0], [⟨0, ()⟩]⟩],
      [⟨"loop", [[.tag 0]]⟩], none⟩
    let slots : Slots := ⟨[0], by simp⟩
    (r.evaluate slots id []).1.map (·.examined) = .ok 1 ∧
      (r.evaluateWith .thorough (.ofSlots slots) id []).1.map (·.2) =
        .error (.circularTag ["loop", "loop"]) := by
  constructor <;> cbv

def Board.only (ids : List Int) (board : Board A M) : Board A M :=
  board.filter fun cell => cell.slot ∈ ids

namespace Board

variable {ids : List Int} {board : Board A M} {rule : Rule A M}

theorem only_ofSlots {slots fewer : Slots} (h : fewer.ids ⊆ slots.ids) :
    (ofSlots slots : Board A M).only fewer.ids = ofSlots fewer := by
  have hids : slots.ids.filter (· ∈ fewer.ids) = fewer.ids := by
    have hperm : (slots.ids.filter (· ∈ fewer.ids)).Perm fewer.ids := by
      refine (List.perm_ext_iff_of_nodup ?_ ?_).mpr fun slot => ?_
      · exact (slots.ascending.imp Int.ne_of_lt).filter _
      · exact fewer.ascending.imp Int.ne_of_lt
      · simpa using fun hslot => h hslot
    exact hperm.eq_of_pairwise (fun a b _ _ hab hba => by omega)
      (slots.ascending.filter _) fewer.ascending
  simp only [only, ofSlots, List.filter_map, Function.comp_def, hids]

theorem only_claim : (board.claim rule).only ids = (board.only ids).claim rule := by
  simp only [only, claim, List.filter_map, Function.comp_def]

theorem wants_of_only (h : (board.only ids).wants rule = true) : board.wants rule = true := by
  obtain ⟨cell, hcell, hopen⟩ := wants_iff.mp h
  exact wants_iff.mpr ⟨cell, List.mem_of_mem_filter hcell, hopen⟩

theorem verdicts_only :
    (board.only ids).verdicts = board.verdicts.filter fun v => v.slot ∈ ids := by
  induction board with
  | nil => rfl
  | cons cell rest ih =>
    obtain ⟨slot, winner⟩ := cell
    by_cases hslot : slot ∈ ids <;> cases winner <;>
      simp_all [only, verdicts]

end Board

/-- A rule that is wanted for some slots is wanted for all, and one that is not wanted for these
leaves their cells as they are. -/
theorem persistent_spares_only (ids : List Int) :
    (Bookkeeping.persistent (A := A) (M := M)).Spares (fun board part => part = board.only ids)
      .persistent where
  tests h hwants := by
    subst h
    exact Board.wants_of_only hwants
  both rule h := by
    subst h
    exact Board.only_claim.symm
  alone h hwants := by
    subst h
    exact (Board.claim_of_unwanted hwants).symm.trans Board.only_claim.symm
  endless _ := rfl
  endless' _ := rfl

/-- Slots are filled independently of each other. When an evaluation comes to an end, so does one
that expects fewer slots. Its board shows the same winners for these, its verdicts are those of the
first evaluation for them, and it examines no more rules. -/
theorem evaluate_fewer_slots {r : Ruleset A M} {slots fewer : Slots}
    (hfewer : fewer.ids ⊆ slots.ids) {holds : A → Bool} {numbers : List Float} {d : Decision A M}
    (h : (r.evaluate slots holds numbers).1 = .ok d) :
    ∃ d', (r.evaluate fewer holds numbers).1 = .ok d' ∧ d'.board = d.board.only fewer.ids ∧
      d'.report.verdicts = d.report.verdicts.filter (·.slot ∈ fewer.ids) ∧
      d'.examined ≤ d.examined := by
  obtain ⟨n, hwithin⟩ := exists_within r.predicates
  have hcovers := covers_of_within hwithin holds numbers
  have hrun := Ruleset.evaluate_eq_ok_iff.mp h
  have hstart : (Board.ofSlots fewer : Board A M) = (Board.ofSlots slots).only fewer.ids :=
    (Board.only_ofSlots hfewer).symm
  obtain ⟨_, examined, hpersistent, rfl, hexamined⟩ :=
    (persistent_spares_only fewer.ids).scanWith_ok hcovers Progress.Sound.empty
      Progress.Sound.empty hstart (Nat.le_refl 0) hrun
  refine ⟨⟨d.board.only fewer.ids, examined⟩, Ruleset.evaluate_eq_ok_iff.mpr hpersistent, rfl, ?_,
    hexamined⟩
  exact Board.verdicts_only

/-- The first rule for slot 1 decides the tag, which refers to itself behind a group that holds. -/
def harbour : Ruleset Bool String where
  rules := [⟨3, 1, [.tag 0], [⟨1, "buoy"⟩]⟩, ⟨2, 2, [.not (.tag 0)], [⟨1, "flag"⟩, ⟨2, "horn"⟩]⟩,
    ⟨1, 3, [.tag 0, .atom true], [⟨2, "bell"⟩, ⟨1, "lamp"⟩]⟩]
  tags := [⟨"fog", [[.atom true], [.tag 0]]⟩]
  source := none

/-- For slot 2 alone, the tag is decided by the second rule, and one rule less is examined. -/
theorem harbour_fewer_slots :
    let slots : Slots := ⟨[1, 2], by simp⟩
    let fewer : Slots := ⟨[2], by simp⟩
    fewer.ids ⊆ slots.ids ∧ ∃ d d', (harbour.evaluate slots id []).1 = .ok d ∧ d.examined = 3 ∧
      (harbour.evaluate fewer id []).1 = .ok d' ∧ d'.board = d.board.only [2] ∧
      d'.report.verdicts = [⟨2, 1, 3⟩] ∧ d'.examined = 2 := by
  intro slots fewer
  have hfewer : fewer.ids ⊆ slots.ids := by simp [slots, fewer]
  have hrun : (harbour.evaluate slots id []).1 =
      .ok ⟨[⟨1, some ⟨⟨3, 1, [.tag 0], [⟨1, "buoy"⟩]⟩, ⟨1, "buoy"⟩⟩⟩,
        ⟨2, some ⟨⟨1, 3, [.tag 0, .atom true], [⟨2, "bell"⟩, ⟨1, "lamp"⟩]⟩, ⟨2, "bell"⟩⟩⟩], 3⟩ := by
    cbv
  have hcount : (harbour.evaluate fewer id []).1.map (·.examined) = .ok 2 := by cbv
  obtain ⟨d', hd', hboard, hverdicts, -⟩ := evaluate_fewer_slots hfewer hrun
  rw [hd'] at hcount
  exact ⟨hfewer, _, d', hrun, rfl, hd', hboard, hverdicts, Except.ok.inj hcount⟩

end Evaluation

end PriorityRules
