import PriorityRules.Proofs.Reading.Concatenation
import PriorityRules.Proofs.Reading.Location
import PriorityRules.Proofs.Reading.Mapping

/-! # One more line

Line numbers are put down and never looked at, so lines that are read under other numbers come out
the same, with those numbers. A blank line or a comment therefore does no more than move the lines
behind it, wherever it is put: inside of a block the end of the line before it has ended the group
already.
-/

namespace PriorityRules

variable {A M : Type} {f : Nat → Nat}

def Rule.relocate (f : Nat → Nat) (rule : Rule A M) : Rule A M := { rule with line := f rule.line }

def LoadError.relocate (f : Nat → Nat) (e : LoadError) : LoadError := { e with line := f e.line }

namespace Reading

def Tier.relocate (f : Nat → Nat) (tier : Tier A M) : Tier A M :=
  { tier with rules := tier.rules.map (Rule.relocate f) }

theorem addRule_relocate (rule : Rule A M) (tiers : List (Tier A M)) :
    addRule (rule.relocate f) (tiers.map (Tier.relocate f)) =
      (addRule rule tiers).map (Tier.relocate f) :=
  addRule_map (f := Rule.relocate f) (fun _ => rfl) rule tiers

namespace Ledger

variable {l : Ledger A} {name : String}

def relocate (f : Nat → Nat) (l : Ledger A) : Ledger A :=
  l.map fun e => { e with firstReference := e.firstReference.map f }

@[simp] theorem names_relocate : (l.relocate f).names = l.names := names_map fun _ => rfl

@[simp] theorem position_relocate : (l.relocate f).position name = l.position name :=
  position_map fun _ => rfl

theorem mention_relocate : (l.relocate f).mention name = (l.mention name).relocate f :=
  mention_map (fun _ => rfl) rfl

theorem refer_relocate {line : Nat} :
    (l.relocate f).refer name (f line) = (l.refer name line).relocate f := by
  rw [refer, mention_relocate, refer, relocate, relocate]
  apply update_map
  · exact fun _ => rfl
  · intro e
    cases e.firstReference <;> simp

theorem define_relocate {groups : List (Group A)} :
    (l.relocate f).define name groups = (l.define name groups).relocate f := by
  apply update_map
  · exact fun _ => rfl
  · exact fun _ => rfl

theorem isDefined_relocate : (l.relocate f).isDefined name = l.isDefined name := by
  simp [isDefined, relocate, Function.comp_def]

theorem tags_relocate (hf : f 0 = 0) :
    (l.relocate f).tags = l.tags.mapError (LoadError.relocate f) := by
  induction l with
  | nil => rfl
  | cons e l ih =>
    rw [relocate, List.map_cons, ← relocate, tags_cons, tags_cons, ih]
    cases e.groups with
    | none => cases hfirst : e.firstReference <;> simp [Except.mapError, LoadError.relocate, hf]
    | some groups => cases tags l <;> rfl

end Ledger

structure Notes.Relocated (f : Nat → Nat) (n m : Notes A) : Prop where
  known : m.known = n.known
  ledger : m.ledger = n.ledger.relocate f

section Conditions

variable {V : Vocabulary A M} {n m : Notes A} {line : Nat}

theorem reuse_relocated (h : n.Relocated f m) {token : Token}
    {read read' : Notes A → Except (Halt PredicateFault) (Predicate A × Notes A)}
    (hread : Parallel (Beside (Notes.Relocated f)) (read n) (read' m)) :
    Parallel (Beside (Notes.Relocated f)) (n.reuse token read) (m.reuse token read') := by
  rw [Notes.reuse, Notes.reuse, h.known]
  split
  · exact .passed ⟨rfl, h⟩
  · apply hread.map
    rintro ⟨p, n⟩ ⟨_, m⟩ ⟨rfl, h⟩
    exact ⟨rfl, congrArg (_ :: ·) h.known, h.ledger⟩

theorem readCondition_relocated (token : Token) (h : n.Relocated f m) :
    Parallel (Beside (Notes.Relocated f)) (readCondition V line token n)
      (readCondition V (f line) token m) := by
  induction token using Token.negations generalizing n m with
  | sign => exact .stopped rfl
  | negation inner hinner ih =>
    rw [readCondition, readCondition]
    · apply reuse_relocated h
      apply (ih h).map
      rintro ⟨p, n⟩ ⟨_, m⟩ ⟨rfl, h⟩
      exact ⟨rfl, h⟩
    · exact hinner
    · exact hinner
  | plain token hplain =>
    rw [readCondition, readCondition]
    · apply reuse_relocated h
      refine readPlain_parallel h (fun _ => ⟨h.known, h.ledger⟩) (fun name => ⟨h.known, ?_⟩)
        (fun name => ?_) token
      · rw [h.ledger, Ledger.refer_relocate]
      · rw [h.ledger, Ledger.refer_relocate, Ledger.position_relocate]
    · exact hplain []
    · exact hplain
    · exact hplain []
    · exact hplain

theorem keeps_relocated :
    Keeps (Notes.Relocated f) line (f line) (readCondition V) (readCondition V) where
  condition token _ _ h := readCondition_relocated token h
  record _ _ _ h := ⟨h.known, h.ledger⟩
  mention _ _ _ h := ⟨h.known, by rw [h.ledger, Ledger.mention_relocate]⟩
  define _ _ _ _ h := ⟨h.known, by rw [h.ledger, Ledger.define_relocate]⟩
  isDefined _ _ _ h := by rw [h.ledger, Ledger.isDefined_relocate]

end Conditions

theorem mapError_bind {E F σ τ : Type} {x : Except E σ} {g : σ → Except E τ} {h : E → F} :
    (x >>= g).mapError h = x.mapError h >>= fun s => (g s).mapError h := by
  cases x <;> rfl

/-- A halt on the one line, put on the other line. -/
theorem mapError_relocate {σ : Type} {line : Nat} {x : Except (Halt LoadFault) σ} :
    (x.mapError (Halt.map (LoadError.mk line))).mapError (Halt.map (LoadError.relocate f)) =
      x.mapError (Halt.map (LoadError.mk (f line))) := by
  cases x <;> rfl

namespace Draft

variable {V : Vocabulary A M} {d d' : Draft A M} {tokens : List Token} {lines : List (List Token)}

structure Relocated (f : Nat → Nat) (d d' : Draft A M) : Prop where
  notes : d.notes.Relocated f d'.notes
  rules : d'.rules.list = d.rules.list.map (Tier.relocate f)
  block : d'.block = d.block

theorem relocated_start : ({} : Draft A M).Relocated f {} := ⟨⟨rfl, rfl⟩, rfl, rfl⟩

theorem readTokens_relocated (h : d.Relocated f d') (hline : d'.lines + 1 = f (d.lines + 1)) :
    Parallel (fun e e' => e.Relocated f e' ∧ e.lines = d.lines + 1 ∧ e'.lines = d'.lines + 1)
      ((d.readTokens V (readCondition V) tokens).mapError (Halt.map (LoadError.relocate f)))
      (d'.readTokens V (readCondition V) tokens) := by
  rw [readTokens, readTokens, h.block, mapError_relocate, hline]
  apply Parallel.mapError
  split
  · unfold readInside
    apply (keeps_relocated.readBlock h.notes).bind
    rintro ⟨block, n⟩ ⟨_, m⟩ ⟨rfl, hnotes⟩
    exact .passed ⟨⟨hnotes, h.rules, rfl⟩, rfl, rfl⟩
  · unfold readOutside
    split
    · exact .passed ⟨⟨h.notes, h.rules, h.block⟩, rfl, rfl⟩
    · rename_i level _ _
      apply (keeps_relocated.readRule h.notes).bind
      rintro ⟨_, n⟩ ⟨_, m⟩ ⟨hnotes, conditions, effects, rfl, rfl⟩
      have hrules :=
        addRule_relocate (f := f) ⟨level, d.lines + 1, conditions, effects⟩ d.rules.list
      rw [← h.rules] at hrules
      exact .passed ⟨⟨hnotes, hrules, h.block⟩, rfl, rfl⟩
    · apply (keeps_relocated.openBlock h.notes).bind
      rintro ⟨block, n⟩ ⟨_, m⟩ ⟨rfl, hnotes⟩
      exact .passed ⟨⟨hnotes, h.rules, rfl⟩, rfl, rfl⟩
    · exact .stopped rfl

theorem foldlM_relocated (h : d.Relocated f d')
    (hlines : ∀ i < lines.length, d'.lines + (i + 1) = f (d.lines + (i + 1))) :
    Parallel (Relocated f)
      ((lines.foldlM (readTokens V (readCondition V)) d).mapError
        (Halt.map (LoadError.relocate f)))
      (lines.foldlM (readTokens V (readCondition V)) d') := by
  induction lines generalizing d d' with
  | nil => exact .passed h
  | cons tokens lines ih =>
    rw [List.foldlM_cons, List.foldlM_cons, mapError_bind]
    apply (readTokens_relocated h (hlines 0 (Nat.succ_pos _))).bind
    rintro e e' ⟨he, hcount, hcount'⟩
    apply ih he
    intro i hi
    have := hlines (i + 1) (Nat.succ_lt_succ hi)
    rw [hcount, hcount', Nat.add_assoc, Nat.add_assoc, Nat.add_comm 1]
    exact this

end Draft

/-- Between two lines no group is under way. -/
def Draft.Settled (d : Draft A M) : Prop := ∀ block ∈ d.block, block.group = []

section Between

variable {V : Vocabulary A M} {condition : ConditionReader A} {d : Draft A M} {tokens : List Token}

theorem endGroup_settled (block : Block A) : block.endGroup.group = [] := by
  unfold Block.endGroup
  split
  · rename_i h
    exact List.isEmpty_iff.mp h
  · rfl

theorem readBlock_settled {line : Nat} {block : Block A} {n : Notes A} :
    Ends (fun _ => True) (fun s => ∀ block ∈ s.1, block.group = [])
      (readBlock condition line tokens block n) := by
  induction tokens generalizing block n with
  | nil => simpa [readBlock, Ends] using endGroup_settled block
  | cons token rest ih =>
    unfold readBlock
    split
    · exact ih
    · split
      · split
        · trivial
        · trivial
        · exact fun block hblock => absurd hblock (Option.not_mem_none block)
      · cases condition line token n with
        | error halt => trivial
        | ok s => exact ih

theorem openBlock_settled {line : Nat} {name : Token} {body : List Token} {n : Notes A} :
    Ends (fun _ => True) (fun s => ∀ block ∈ s.1, block.group = [])
      (openBlock condition line name body n) := by
  unfold openBlock
  split
  · dsimp only
    split
    · trivial
    · exact readBlock_settled
  · trivial

theorem readTokens_settled (h : d.Settled) :
    Ends (fun _ => True) Draft.Settled (d.readTokens V condition tokens) := by
  rw [Draft.readTokens]
  refine Ends.mapError (Q := fun _ => True) ?_ fun _ _ => trivial
  split
  · exact readBlock_settled.bind fun s hs => hs
  · unfold Draft.readOutside
    split
    · exact h
    · exact (Ends.of_ok fun _ _ => trivial).bind fun _ _ => h
    · exact openBlock_settled.bind fun s hs => hs
    · trivial

theorem settled_start : ({} : Draft A M).Settled := by simp [Draft.Settled]

theorem settled_of_foldlM {lines : List (List Token)} {d' : Draft A M} (h : d.Settled)
    (hread : lines.foldlM (Draft.readTokens V condition) d = .ok d') : d'.Settled := by
  induction lines generalizing d with
  | nil => exact Except.ok.inj hread ▸ h
  | cons tokens lines ih =>
    rw [List.foldlM_cons] at hread
    obtain ⟨next, hnext, hrest⟩ := bind_eq_ok.mp hread
    have hends : Ends (fun _ => True) Draft.Settled (d.readTokens V condition tokens) :=
      readTokens_settled h
    rw [hnext] at hends
    exact ih hends hrest

theorem continuation_of_skipped (h : ∀ first ∈ tokens.head?, first.isComment) :
    continuation tokens = [] := by
  cases tokens with
  | nil => rfl
  | cons first rest => simp [continuation, h first rfl]

/-- A blank line or a comment passes wherever it stands, and only counts as one more line. -/
theorem foldlM_neutral (hd : d.Settled) (h : ∀ first ∈ tokens.head?, first.isComment)
    (lines : List (List Token)) :
    (tokens :: lines).foldlM (Draft.readTokens V condition) d =
      lines.foldlM (Draft.readTokens V condition) { d with lines := d.lines + 1 } := by
  rcases d.block.eq_none_or_eq_some with hblock | ⟨block, hblock⟩
  · exact foldlM_skipped hblock h
  · have hgroup : block.endGroup = block := by
      rw [Block.endGroup, hd block hblock]
      rfl
    rw [foldlM_inside hblock, continuation_of_skipped h, resume, readBlock, hgroup, ← hblock]
    rfl

end Between

def movedBehind (k line : Nat) : Nat := if k < line then line + 1 else line

section Behind

variable {V : Vocabulary A M} {tokens : List Token} {lines : List (List Token)} {k : Nat}

theorem foldlM_inserted (h : ∀ first ∈ tokens.head?, first.isComment) (hk : k ≤ lines.length) :
    Parallel (Draft.Relocated (movedBehind k))
      ((lines.foldlM (Draft.readTokens V (readCondition V)) {}).mapError
        (Halt.map (LoadError.relocate (movedBehind k))))
      ((lines.take k ++ tokens :: lines.drop k).foldlM
        (Draft.readTokens V (readCondition V)) {}) := by
  have hbefore : Parallel (Draft.Relocated (movedBehind k))
      (((lines.take k).foldlM (Draft.readTokens V (readCondition V)) {}).mapError
        (Halt.map (LoadError.relocate (movedBehind k))))
      ((lines.take k).foldlM (Draft.readTokens V (readCondition V)) {}) := by
    apply Draft.foldlM_relocated Draft.relocated_start
    intro i hi
    rw [List.length_take] at hi
    rw [movedBehind, if_neg (by simp; omega)]
  nth_rewrite 1 [← List.take_append_drop k lines]
  rw [List.foldlM_append, List.foldlM_append, mapError_bind]
  cases hread : (lines.take k).foldlM (Draft.readTokens V (readCondition V)) {} with
  | error halt =>
    rw [hread] at hbefore
    cases hbefore with
    | stopped hfault => exact .stopped hfault
  | ok d =>
    rw [hread] at hbefore
    obtain ⟨_, hcount⟩ := Draft.dated_of_foldlM Draft.dated_start hread
    cases hbefore with
    | passed hd =>
      -- from here on both readings go through the same lines, the second under greater numbers
      have hrest : Parallel (Draft.Relocated (movedBehind k))
          (((lines.drop k).foldlM (Draft.readTokens V (readCondition V)) d).mapError
            (Halt.map (LoadError.relocate (movedBehind k))))
          ((lines.drop k).foldlM (Draft.readTokens V (readCondition V))
            { d with lines := d.lines + 1 }) := by
        have hnext : d.Relocated (movedBehind k) { d with lines := d.lines + 1 } :=
          ⟨hd.notes, hd.rules, hd.block⟩
        have hline : d.lines = k := by simpa [hk] using hcount
        apply Draft.foldlM_relocated hnext
        intro i _
        rw [hline, movedBehind, if_pos (by omega)]
        exact Nat.add_right_comm k 1 (i + 1)
      rw [← foldlM_neutral (settled_of_foldlM settled_start hread) h] at hrest
      exact hrest

end Behind

/-- What a text of `count` lines comes to once a line has been put behind line `k` of it. A block
that is never closed is reported on the last line; all else that is behind line `k` is one line
further down. -/
def afterInsertion (k count : Nat) (text : String) :
    Except LoadError (Ruleset A M) → Except LoadError (Ruleset A M)
  | .ok r => .ok
    { rules := r.rules.map (Rule.relocate (movedBehind k)), tags := r.tags, source := some text }
  | .error ⟨_, .unclosedTag name⟩ => .error ⟨count + 1, .unclosedTag name⟩
  | .error ⟨line, fault⟩ => .error ⟨movedBehind k line, fault⟩

section Finish

variable {d d' : Draft A M}

theorem afterInsertion_of_error {k count : Nat} {text : String} {error : LoadError}
    (h : ∀ name, error.fault ≠ .unclosedTag name) :
    afterInsertion k count text (.error error : Except LoadError (Ruleset A M)) =
      .error (error.relocate (movedBehind k)) := by
  obtain ⟨line, fault⟩ := error
  cases fault with
  | unclosedTag name => exact absurd rfl (h name)
  | _ => rfl

theorem Draft.Relocated.finish_eq (h : d.Relocated f d') (hf : f 0 = 0)
    (hblock : d.block = none) (source source' : String) :
    d'.finish source' =
      ((d.finish source).map fun r =>
        { r with rules := r.rules.map (Rule.relocate f), source := some source' }).mapError
          (LoadError.relocate f) := by
  have hrules : d'.rules.inOrder = d.rules.inOrder.map (Rule.relocate f) := by
    rw [Tiers.inOrder, Tiers.inOrder, h.rules, ← List.map_reverse, List.flatMap_map,
      List.map_flatMap]
    rfl
  rw [finish, finish, h.block, hblock]
  dsimp only
  rw [h.notes.ledger, Ledger.tags_relocate hf, hrules]
  cases d.notes.ledger.tags <;> rfl

theorem Draft.undefined_of_finish (h : d.Dated) (hblock : d.block = none)
    {source : String} {error : LoadError} (hfinish : d.finish source = .error error) :
    ∃ name, error.fault = .undefinedTag name := by
  have hledger := h.ledger
  rw [hblock] at hledger
  rw [finish, hblock] at hfinish
  dsimp only at hfinish
  cases htags : d.notes.ledger.tags with
  | error fault =>
    rw [htags] at hfinish
    cases hfinish
    exact (hledger.line_of_tags htags).2.2
  | ok tags =>
    rw [htags] at hfinish
    cases hfinish

theorem Draft.Relocated.finish_inserted {k count : Nat} (h : d.Relocated (movedBehind k) d')
    (hdated : d.Dated) (hcount : d'.lines = count + 1) (source source' : String) :
    d'.finish source' = afterInsertion k count source' (d.finish source) := by
  rcases d.block.eq_none_or_eq_some with hblock | ⟨block, hblock⟩
  · rw [h.finish_eq rfl hblock source]
    cases hfinish : d.finish source with
    | ok r => rfl
    | error error =>
      obtain ⟨name, hname⟩ := Draft.undefined_of_finish hdated hblock hfinish
      rw [afterInsertion_of_error fun other => by rw [hname]; exact nofun]
      rfl
  · rw [finish, finish, h.block, hblock, hcount]
    rfl

end Finish

end Reading

def Text.ofLines (lines : List Text.Line) : String :=
  String.ofList (lines.flatMap (· ++ ['\n']))

namespace Vocabulary

open Reading

variable {V : Vocabulary A M}

theorem tokenLines_ofLines {lines : List Text.Line} (h : ∀ line ∈ lines, '\n' ∉ line) :
    tokenLines (Text.ofLines lines) = lines.map Token.split := by
  have hlines := lines_flatMap_feed h []
  simpa [tokenLines, Text.ofLines, Text.lines] using hlines

theorem tokenLines_inserted {lines : List Text.Line} {line : Text.Line} {k : Nat}
    (h : ∀ l ∈ line :: lines, '\n' ∉ l) :
    tokenLines (Text.ofLines (lines.take k ++ line :: lines.drop k)) =
      (lines.map Token.split).take k ++ Token.split line :: (lines.map Token.split).drop k := by
  rw [tokenLines_ofLines, List.map_append, List.map_cons, List.map_take, List.map_drop]
  intro l hl
  apply h
  rcases List.mem_append.mp hl with hl | hl
  · exact List.mem_cons_of_mem _ (List.mem_of_mem_take hl)
  · exact List.mem_cons.mpr ((List.mem_cons.mp hl).imp_right List.mem_of_mem_drop)

/-- Put a blank line or a comment behind line `k` of a text, inside of a block or not. The text is
read as it was, apart from the numbers of the lines behind. -/
theorem read_with_line_inserted {lines : List Text.Line} {line : Text.Line} {k : Nat}
    (hlines : ∀ l ∈ line :: lines, '\n' ∉ l)
    (hskipped : ∀ first ∈ (Token.split line).head?, first.isComment) (hk : k ≤ lines.length) :
    let text := Text.ofLines (lines.take k ++ line :: lines.drop k)
    (V.read text).outcome =
      afterInsertion k lines.length text (V.read (Text.ofLines lines)).outcome := by
  intro text
  have hold : tokenLines (Text.ofLines lines) = lines.map Token.split :=
    tokenLines_ofLines fun l hl => hlines l (List.mem_cons_of_mem _ hl)
  have hlength : ((lines.map Token.split).take k ++
      Token.split line :: (lines.map Token.split).drop k).length = lines.length + 1 := by
    simp
    omega
  have hread := @foldlM_inserted A M V _ (lines.map Token.split) k hskipped (by simpa)
  rw [outcome_read, outcome_read, hold, tokenLines_inserted hlines]
  generalize hy : ((lines.map Token.split).take k ++
    Token.split line :: (lines.map Token.split).drop k).foldlM
      (Draft.readTokens V (readCondition V)) {} = y at hread
  cases hx : (lines.map Token.split).foldlM (Draft.readTokens V (readCondition V)) {} with
  | error halt =>
    obtain ⟨_, _, _, hline, _⟩ := Draft.stop_of_foldlM Draft.dated_start hx
    rw [hx] at hread
    cases hread with
    | stopped hfault =>
      have houtcome := @afterInsertion_of_error A M k lines.length text halt.fault
        fun name hname => hline (hname ▸ trivial)
      exact (congrArg Except.error hfault.symm).trans houtcome.symm
  | ok d =>
    rw [hx] at hread
    cases hread with
    | passed hd =>
      have hcount := (Draft.dated_of_foldlM Draft.dated_start hy).2
      rw [hlength, Nat.zero_add] at hcount
      exact hd.finish_inserted (Draft.dated_of_foldlM Draft.dated_start hx).1 hcount _ _

/-- A comment inside of a block moves the rule behind it, and the end of the text when the block is
left open. -/
theorem verbatim_reads_comment_inside :
    (verbatim.read "hall [ a\n!b ]\n1 %hall -> wait\n").outcome = .ok
        { rules := [⟨1, 3, [.tag 0], [⟨1, "wait"⟩]⟩]
          tags := [⟨"hall", [[.atom "a"], [.not (.atom "b")]]⟩]
          source := some "hall [ a\n!b ]\n1 %hall -> wait\n" } ∧
      (verbatim.read "hall [ a\n# d, e ]\n!b ]\n1 %hall -> wait\n").outcome = .ok
        { rules := [⟨1, 4, [.tag 0], [⟨1, "wait"⟩]⟩]
          tags := [⟨"hall", [[.atom "a"], [.not (.atom "b")]]⟩]
          source := some "hall [ a\n# d, e ]\n!b ]\n1 %hall -> wait\n" } ∧
      (verbatim.read "hall [ a\n").outcome = .error ⟨1, .unclosedTag "hall"⟩ ∧
      (verbatim.read "hall [ a\n# d, e ]\n").outcome = .error ⟨2, .unclosedTag "hall"⟩ := by
  have hread : (verbatim.read "hall [ a\n!b ]\n1 %hall -> wait\n").outcome = .ok
      { rules := [⟨1, 3, [.tag 0], [⟨1, "wait"⟩]⟩]
        tags := [⟨"hall", [[.atom "a"], [.not (.atom "b")]]⟩]
        source := some "hall [ a\n!b ]\n1 %hall -> wait\n" } := by
    rfl
  have hopen : (verbatim.read "hall [ a\n").outcome = .error ⟨1, .unclosedTag "hall"⟩ := by
    rfl
  have hmoved := @read_with_line_inserted _ _ verbatim
    (["hall [ a", "!b ]", "1 %hall -> wait"].map String.toList) "# d, e ]".toList 1 (by decide)
    (by decide) (by decide)
  have hend := @read_with_line_inserted _ _ verbatim ["hall [ a".toList] "# d, e ]".toList 1
    (by decide) (by decide) (by decide)
  have hold : Text.ofLines (["hall [ a", "!b ]", "1 %hall -> wait"].map String.toList) =
      "hall [ a\n!b ]\n1 %hall -> wait\n" := by decide
  have hlast : Text.ofLines ["hall [ a".toList] = "hall [ a\n" := by decide
  rw [hold, hread] at hmoved
  rw [hlast, hopen] at hend
  exact ⟨hread, hmoved, hopen, hend⟩

end Vocabulary

end PriorityRules
