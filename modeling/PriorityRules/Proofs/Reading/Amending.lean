import PriorityRules.Proofs.Evaluation.Cancelling
import PriorityRules.Proofs.Reading.Acceptance
import PriorityRules.Proofs.Reading.Mapping

/-! # Replacing predicates while reading

Nothing that is put down while a text is read depends on the predicates that have been put down
before. Replacing each predicate where it is read therefore comes to the same as replacing them all
in the ruleset.
-/

namespace PriorityRules

variable {A M : Type} {g : Predicate A → Predicate A}

def Ruleset.amend (g : Predicate A → Predicate A) (r : Ruleset A M) : Ruleset A M :=
  { r with rules := r.rules.map (Rule.amend g), tags := r.tags.map (Tag.amend g) }

namespace Reading

def Entry.amend (g : Predicate A → Predicate A) (e : Entry A) : Entry A :=
  { e with groups := e.groups.map (List.map (Group.amend g)) }

def Notes.amend (g : Predicate A → Predicate A) (n : Notes A) : Notes A :=
  { n with ledger := n.ledger.map (Entry.amend g) }

def Block.amend (g : Predicate A → Predicate A) (b : Block A) : Block A :=
  { b with ended := b.ended.map (Group.amend g), group := Group.amend g b.group }

def Tiers.amend (g : Predicate A → Predicate A) (t : Tiers A M) : Tiers A M where
  list := t.list.map (Tier.map (Rule.amend g))
  ascending := by simpa [Tier.map, Function.comp_def] using t.ascending
  uniform := by
    intro tier' htier' rule' hrule'
    obtain ⟨tier, htier, rfl⟩ := List.mem_map.mp htier'
    obtain ⟨rule, hrule, rfl⟩ := List.mem_map.mp hrule'
    exact t.uniform tier htier rule hrule

def Draft.amend (g : Predicate A → Predicate A) (d : Draft A M) : Draft A M where
  notes := d.notes.amend g
  rules := d.rules.amend g
  block := d.block.map (Block.amend g)
  lines := d.lines

def amending (g : Predicate A → Predicate A) (condition : ConditionReader A) : ConditionReader A :=
  fun line token notes => (condition line token notes).map (Prod.map g id)

/-- What a condition is read as does not depend on the groups put down, which stay as they are. -/
def Blind (g : Predicate A → Predicate A) (condition : ConditionReader A) : Prop :=
  ∀ line token (n : Notes A), condition line token (n.amend g) =
    (condition line token n).map (Prod.map id (Notes.amend g))

section Conditions

variable {V : Vocabulary A M} {n : Notes A} {l : Ledger A} {name : String} {line : Nat}

theorem mention_amend :
    Ledger.mention (l.map (Entry.amend g)) name = (l.mention name).map (Entry.amend g) :=
  Ledger.mention_map (fun _ => rfl) rfl

theorem refer_amend :
    Ledger.refer (l.map (Entry.amend g)) name line =
      (l.refer name line).map (Entry.amend g) := by
  rw [Ledger.refer, mention_amend, Ledger.refer]
  exact Ledger.update_map (f := Entry.amend g) (fun _ => rfl) fun _ => rfl

theorem define_amend {groups : List (Group A)} :
    Ledger.define (l.map (Entry.amend g)) name (groups.map (Group.amend g)) =
      (l.define name groups).map (Entry.amend g) :=
  Ledger.update_map (f := Entry.amend g) (fun _ => rfl) fun _ => rfl

theorem isDefined_amend :
    Ledger.isDefined (l.map (Entry.amend g)) name = l.isDefined name := by
  simp only [Ledger.isDefined, List.any_map, Entry.amend, Function.comp_def, Option.isSome_map]
  rfl

theorem position_amend :
    Ledger.position (l.map (Entry.amend g)) name = l.position name :=
  Ledger.position_map fun _ => rfl

theorem readPlain_amend (token : Token) :
    readPlain V line token (n.amend g) =
      (readPlain V line token n).map (Prod.map id (Notes.amend g)) := by
  unfold readPlain
  split
  · rfl
  · simp [Notes.amend, refer_amend, position_amend, Except.map]
  · split <;> rfl
  · split
    · rename_i answer _
      cases answer <;> rfl
    · rfl

theorem blind_readAfresh : Blind g (readAfresh V) := by
  intro line token n
  induction token using Token.negations with
  | sign => rfl
  | negation inner hinner ih =>
    rw [readAfresh_negation hinner, readAfresh_negation hinner, ih]
    cases readAfresh V line inner n <;> rfl
  | plain token hplain =>
    rw [readAfresh_plain hplain, readAfresh_plain hplain, readPlain_amend]

end Conditions

section Lines

variable {V : Vocabulary A M} {condition : ConditionReader A} (hblind : Blind g condition)

theorem readEach_amend {E τ α β : Type} {read : τ → Notes A → Except (Halt E) (α × Notes A)}
    {read' : τ → Notes A → Except (Halt E) (β × Notes A)} {f : α → β}
    (hread : ∀ piece n, read' piece (n.amend g) =
      (read piece n).map (Prod.map f (Notes.amend g)))
    (pieces : List τ) (n : Notes A) :
    readEach read' pieces (n.amend g) =
      (readEach read pieces n).map (Prod.map (List.map f) (Notes.amend g)) := by
  induction pieces generalizing n with
  | nil => rfl
  | cons piece pieces ih =>
    rw [readEach, readEach, hread]
    cases read piece n with
    | error halt => rfl
    | ok s =>
      change readEach read' pieces (s.2.amend g) >>= _ =
        Except.map _ (readEach read pieces s.2 >>= _)
      rw [ih]
      cases readEach read pieces s.2 <;> rfl

theorem ask_amend {α E : Type} (call : Call) (answer : Except String α) (refused : String → E)
    (n : Notes A) :
    (n.amend g).ask call answer refused =
      (n.ask call answer refused).map (Prod.map id (Notes.amend g)) := by
  cases answer <;> rfl

theorem readEffects_amend (words : List Token) (n : Notes A) :
    let read : Token → Notes A → Except (Halt LoadFault) (List (Effect M) × Notes A) :=
      fun word notes => notes.ask (.effect (String.ofList word)) (V.effects (String.ofList word))
        LoadFault.effect
    readEach read words (n.amend g) =
      (readEach read words n).map (Prod.map id (Notes.amend g)) := by
  intro read
  have hread : ∀ word n, read word (n.amend g) =
      (read word n).map (Prod.map id (Notes.amend g)) := fun word n => ask_amend _ _ _ n
  have heach := readEach_amend hread words n
  rwa [List.map_id_fun] at heach

include hblind

theorem amending_amend (line : Nat) (token : Token) (n : Notes A) :
    amending g condition line token (n.amend g) =
      (condition line token n).map (Prod.map g (Notes.amend g)) := by
  rw [amending, hblind]
  cases condition line token n <;> rfl

theorem readRule_amend (level : Int) (line : Nat) (body : List Token) (n : Notes A) :
    readRule V (amending g condition) level line body (n.amend g) =
      (readRule V condition level line body n).map (Prod.map (Rule.amend g) (Notes.amend g)) := by
  rw [readRule, readRule, readEach_amend (amending_amend hblind line)]
  cases readEach (condition line) (body.takeWhile (· ≠ Token.arrow)) n with
  | error halt => rfl
  | ok s =>
    obtain ⟨conditions, n⟩ := s
    cases body.dropWhile (· ≠ Token.arrow) with
    | nil => rfl
    | cons arrow words =>
      change readEach _ words (n.amend g) >>= _ = Except.map _ (readEach _ words n >>= _)
      rw [readEffects_amend]
      cases readEach (fun word notes => notes.ask (.effect (String.ofList word))
          (V.effects (String.ofList word)) LoadFault.effect) words n with
      | error halt => rfl
      | ok s =>
        obtain ⟨effects, n⟩ := s
        dsimp only [bind, Except.bind, Except.map, Prod.map, id]
        cases effects.flatten <;> rfl

theorem readBlock_amend (line : Nat) (tokens : List Token) (block : Block A) (n : Notes A) :
    readBlock (amending g condition) line tokens (block.amend g) (n.amend g) =
      (readBlock condition line tokens block n).map
        (Prod.map (Option.map (Block.amend g)) (Notes.amend g)) := by
  have hend : ∀ block : Block A, (block.amend g).endGroup = block.endGroup.amend g := by
    intro block
    rw [Block.endGroup, Block.endGroup, Block.amend, Group.amend, List.isEmpty_map]
    split
    · rfl
    · simp [Block.amend, Group.amend]
  induction tokens generalizing block n with
  | nil =>
    rw [readBlock, hend]
    rfl
  | cons token rest ih =>
    unfold readBlock
    split
    · rw [hend, ih]
    · split
      · rw [hend]
        cases rest with
        | cons => rfl
        | nil =>
          obtain ⟨name, ended, group⟩ := block.endGroup
          cases ended with
          | nil => rfl
          | cons group groups =>
            exact congrArg (fun l => Except.ok (none, { n with ledger := l })) define_amend
      · rw [amending_amend hblind]
        cases condition line token n with
        | error halt => rfl
        | ok s =>
          have hadd : (block.amend g).add (g s.1) = (block.add s.1).amend g := by
            simp [Block.add, Block.amend, Group.amend]
          change readBlock _ line rest ((block.amend g).add (g s.1)) (s.2.amend g) =
            Except.map _ (readBlock condition line rest (block.add s.1) s.2)
          rw [hadd, ih]

theorem openBlock_amend (line : Nat) (name : Token) (body : List Token) (n : Notes A) :
    openBlock (amending g condition) line name body (n.amend g) =
      (openBlock condition line name body n).map
        (Prod.map (Option.map (Block.amend g)) (Notes.amend g)) := by
  unfold openBlock
  split
  · dsimp only
    have hmention : (n.amend g).ledger.mention (String.ofList name) =
        (n.ledger.mention (String.ofList name)).map (Entry.amend g) := mention_amend
    rw [hmention, isDefined_amend]
    split
    · rfl
    · exact readBlock_amend hblind line _ { name := String.ofList name }
        { n with ledger := n.ledger.mention (String.ofList name) }
  · rfl

theorem readTokens_amend (tokens : List Token) (d : Draft A M) :
    (d.amend g).readTokens V (amending g condition) tokens =
      (d.readTokens V condition tokens).map (Draft.amend g) := by
  obtain ⟨notes, rules, block, lines⟩ := d
  cases block with
  | some block =>
    have hblock := readBlock_amend hblind (lines + 1) (continuation tokens) block notes
    simp only [Draft.readTokens, Draft.readInside, Draft.amend, Option.map_some, hblock]
    cases readBlock condition (lines + 1) (continuation tokens) block notes <;> rfl
  | none =>
    simp only [Draft.readTokens, Draft.readOutside, Draft.amend, Option.map_none]
    split
    · rfl
    · rename_i level body _
      rw [readRule_amend hblind]
      cases readRule V condition level (lines + 1) body notes with
      | error halt => rfl
      | ok s =>
        have hrules : (rules.amend g).add (s.1.amend g) = (rules.add s.1).amend g := by
          simp only [Tiers.add, Tiers.amend, addRule_map (f := Rule.amend g) fun _ => rfl]
        change (.ok ⟨s.2.amend g, (rules.amend g).add (s.1.amend g), none, lines + 1⟩ :
          Except (Halt LoadError) (Draft A M)) = _
        rw [hrules]
        rfl
    · rename_i name body _
      rw [openBlock_amend hblind]
      cases openBlock condition (lines + 1) name body notes <;> rfl
    · rfl

theorem foldlM_amend (lines : List (List Token)) (d : Draft A M) :
    lines.foldlM (Draft.readTokens V (amending g condition)) (d.amend g) =
      (lines.foldlM (Draft.readTokens V condition) d).map (Draft.amend g) := by
  induction lines generalizing d with
  | nil => rfl
  | cons tokens lines ih =>
    rw [List.foldlM_cons, List.foldlM_cons, readTokens_amend hblind]
    cases d.readTokens V condition tokens with
    | error halt => rfl
    | ok next => exact ih next

end Lines

theorem tags_amend {l : Ledger A} :
    Ledger.tags (l.map (Entry.amend g)) = l.tags.map (List.map (Tag.amend g)) := by
  induction l with
  | nil => rfl
  | cons e l ih =>
    rw [List.map_cons, Ledger.tags_cons, Ledger.tags_cons, ih, Entry.amend]
    cases e.groups with
    | none => rfl
    | some groups => cases Ledger.tags l <;> rfl

theorem inOrder_amend (t : Tiers A M) : (t.amend g).inOrder = t.inOrder.map (Rule.amend g) := by
  simp only [Tiers.inOrder, Tiers.amend, ← List.map_reverse, List.flatMap_map, List.map_flatMap]
  rfl

theorem finish_amend (d : Draft A M) (source : String) :
    (d.amend g).finish source = (d.finish source).map (Ruleset.amend g) := by
  obtain ⟨notes, rules, block, lines⟩ := d
  cases block with
  | some block => rfl
  | none =>
    simp only [Draft.finish, Draft.amend, Option.map_none, Notes.amend, tags_amend, inOrder_amend]
    cases notes.ledger.tags <;> rfl

end Reading

end PriorityRules
