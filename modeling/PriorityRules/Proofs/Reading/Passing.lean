import PriorityRules.Proofs.Reading.Accounts

/-! # Which lines pass

Rule lines and tag blocks, read afresh, pass exactly when the vocabulary accepts their tokens and
there is an effect or a group, as the case may be. What they leave in the draft is what the
grammar says, with each name at the place that it has in the whole text.
-/

namespace PriorityRules.Reading

variable {A M : Type} {V : Vocabulary A M}

/-- The computation passes exactly under the condition `P`, and what it gives satisfies `R`. -/
structure Passes {E σ : Type} (x : Except E σ) (P : Prop) (R : σ → Prop) : Prop where
  passes : P → ∃ s, x = .ok s
  result : ∀ s, x = .ok s → P ∧ R s

namespace Passes

variable {E F σ τ : Type} {x : Except E σ} {P Q : Prop} {R : σ → Prop} {T : τ → Prop}

theorem ok {s : σ} (hP : P) (h : R s) : Passes (.ok s : Except E σ) P R :=
  ⟨fun _ => ⟨s, rfl⟩, fun _ heq => Except.ok.inj heq ▸ ⟨hP, h⟩⟩

theorem error {e : E} (h : ¬P) : Passes (.error e : Except E σ) P R :=
  ⟨fun hP => absurd hP h, fun _ heq => nomatch heq⟩

theorem bind (h : Passes x P R) {f : σ → Except E τ} (hf : ∀ s, P → R s → Passes (f s) Q T) :
    Passes (x >>= f) (P ∧ Q) T := by
  cases x with
  | error e => exact .error fun hPQ => nomatch h.passes hPQ.1
  | ok s =>
    obtain ⟨hP, hR⟩ := h.result s rfl
    exact ⟨fun hPQ => (hf s hP hR).passes hPQ.2,
      fun t ht => ⟨⟨hP, ((hf s hP hR).result t ht).1⟩, ((hf s hP hR).result t ht).2⟩⟩

theorem congr (h : Passes x P R) (hPQ : P ↔ Q) {S : σ → Prop} (hRS : ∀ s, R s → S s) :
    Passes x Q S :=
  ⟨fun hQ => h.passes (hPQ.mpr hQ),
    fun s hs => ⟨hPQ.mp (h.result s hs).1, hRS s (h.result s hs).2⟩⟩

theorem map (h : Passes x P R) {f : σ → τ} (hf : ∀ s, R s → T (f s)) :
    Passes (x >>= fun s => .ok (f s)) P T :=
  (h.bind fun s _ hs => .ok trivial (hf s hs)).congr (and_iff_left trivial) fun _ ht => ht

theorem mapError (h : Passes x P R) {f : E → F} : Passes (x.mapError f) P R := by
  cases x with
  | error e => exact .error fun hP => nomatch h.passes hP
  | ok s =>
    obtain ⟨hP, hR⟩ := h.result s rfl
    exact .ok hP hR

end Passes

theorem references_cons {token : Token} {tokens : List Token} :
    references (token :: tokens) = token.referred?.toList ++ references tokens := by
  rw [references, references, List.filterMap_cons]
  cases token.referred? <;> rfl

theorem references_append {tokens rest : List Token} :
    references (tokens ++ rest) = references tokens ++ references rest :=
  List.filterMap_append

section Conditions

variable {names all : List String} {tags : List (Tag A)} {n : Notes A}

theorem readAfresh_passes (line : Nat) {token : Token} (h : Accounts names tags n.ledger)
    (hall : names ++ token.referred?.toList <+: all) :
    Passes (readAfresh V line token n) (V.Accepts token) fun s =>
      V.interpret (place all) token = .ok s.1 ∧
        Accounts (names ++ token.referred?.toList) tags s.2.ledger := by
  have hcite := h.cite line token
  have hplace : V.interpret (n.ledger.cite line token).position token =
      V.interpret (place all) token := by
    apply Vocabulary.interpret_congr
    intro name href
    exact hcite.position (List.mem_append_right _ (href ▸ List.mem_singleton_self name)) hall
  constructor
  · intro haccepts
    obtain ⟨p, hp⟩ := haccepts (n.ledger.cite line token).position
    obtain ⟨after, hread, _⟩ := upshot_eq_ok.mp (upshot_readAfresh_eq_ok.mpr ⟨rfl, hp⟩)
    exact ⟨(p, after), hread⟩
  · rintro ⟨p, after⟩ hread
    obtain ⟨hledger, hp⟩ := upshot_readAfresh_eq_ok.mp (upshot_eq_ok.mpr ⟨after, hread, rfl⟩)
    rw [hledger] at hp
    exact ⟨Vocabulary.accepts_of_interpret hp, hplace ▸ hp, hledger ▸ hcite⟩

theorem readConditions_pass (line : Nat) {tokens : List Token} (h : Accounts names tags n.ledger)
    (hall : names ++ references tokens <+: all) :
    Passes (readEach (readAfresh V line) tokens n) (∀ token ∈ tokens, V.Accepts token) fun s =>
      s.1 = V.predicates (place all) tokens ∧
        Accounts (names ++ references tokens) tags s.2.ledger := by
  induction tokens generalizing n names with
  | nil =>
    exact .ok (List.forall_mem_nil _) ⟨rfl, (List.append_nil names).symm ▸ h⟩
  | cons token tokens ih =>
    rw [references_cons, ← List.append_assoc] at hall ⊢
    rw [readEach, List.forall_mem_cons]
    have hfirst := readAfresh_passes (V := V) line h ((List.prefix_append _ _).trans hall)
    apply hfirst.bind
    rintro ⟨p, after⟩ _ ⟨hp, hafter⟩
    apply (ih hafter hall).map
    rintro ⟨ps, after⟩ ⟨rfl, hafter⟩
    exact ⟨(Vocabulary.predicates_cons hp _).symm, hafter⟩

theorem ask_passes {E α : Type} {call : Call} {answer : Except String α} {refused : String → E} :
    Passes (n.ask call answer refused) (∃ value, answer = .ok value) fun s =>
      answer = .ok s.1 ∧ s.2.ledger = n.ledger := by
  cases answer with
  | error message => exact .error fun ⟨_, h⟩ => nomatch h
  | ok value => exact .ok ⟨value, rfl⟩ ⟨rfl, rfl⟩

theorem readEffects_pass (words : List Token) :
    Passes (readEach (fun word notes => notes.ask (.effect (String.ofList word))
        (V.effects (String.ofList word)) LoadFault.effect) words n)
      (∀ word ∈ words, V.AcceptsEffect word) fun s =>
        s.1.flatten = V.effectsOf words ∧ s.2.ledger = n.ledger := by
  induction words generalizing n with
  | nil => exact .ok (List.forall_mem_nil _) ⟨rfl, rfl⟩
  | cons word words ih =>
    rw [readEach, List.forall_mem_cons]
    apply ask_passes.bind
    rintro ⟨effects, after⟩ _ ⟨heffects, hafter⟩
    apply ih.map
    rintro ⟨rest, last⟩ ⟨hrest, hlast⟩
    refine ⟨?_, hlast.trans hafter⟩
    rw [Vocabulary.effectsOf, List.filterMap_cons, heffects]
    exact congrArg (effects ++ ·) hrest

theorem takeWhile_arrow {conditions : List Token} (h : Token.arrow ∉ conditions)
    (words : List Token) :
    (conditions ++ Token.arrow :: words).takeWhile (· ≠ Token.arrow) = conditions := by
  rw [List.takeWhile_append_of_pos, List.takeWhile_cons_of_neg (by simp), List.append_nil]
  exact fun token htoken => decide_eq_true fun heq => h (heq ▸ htoken)

theorem dropWhile_arrow {conditions : List Token} (h : Token.arrow ∉ conditions)
    (words : List Token) :
    (conditions ++ Token.arrow :: words).dropWhile (· ≠ Token.arrow) = Token.arrow :: words := by
  rw [List.dropWhile_append_of_pos, List.dropWhile_cons_of_neg (by simp)]
  exact fun token htoken => decide_eq_true fun heq => h (heq ▸ htoken)

theorem readRule_passes {level : Int} (line : Nat) {conditions words : List Token}
    (harrow : Token.arrow ∉ conditions) (h : Accounts names tags n.ledger)
    (hall : names ++ (Item.rule line level conditions words).mentions <+: all) :
    Passes (readRule V (readAfresh V) level line (conditions ++ Token.arrow :: words) n)
      ((Item.rule line level conditions words).Accepted V) fun s =>
        some s.1 = (Item.rule line level conditions words).rule? V (place all) ∧
          Accounts (names ++ (Item.rule line level conditions words).mentions) tags
            s.2.ledger := by
  rw [readRule, takeWhile_arrow harrow, dropWhile_arrow harrow]
  apply (readConditions_pass line h hall).mapError.bind
  rintro ⟨predicates, after⟩ _ ⟨rfl, hafter⟩
  apply (readEffects_pass words).bind
  rintro ⟨effects, last⟩ _ ⟨heffects, hlast⟩
  dsimp only at heffects hlast ⊢
  rw [heffects]
  split
  · rename_i hnone
    exact .error fun h => h hnone
  · rename_i hsome
    exact .ok hsome ⟨rfl, hlast ▸ hafter⟩

end Conditions

/-- The runs of tokens that follow a run under way. -/
def runsFrom (run : List Token) : List Token → List (List Token)
  | [] => [run].filter (· ≠ [])
  | token :: rest =>
    if token = [','] then [run].filter (· ≠ []) ++ runsFrom [] rest
    else runsFrom (run ++ [token]) rest

section Runs

variable {run tokens : List Token}

theorem filter_splitOnPPrepend :
    (tokens.splitOnPPrepend (· = [',']) run.reverse).filter (· ≠ []) = runsFrom run tokens := by
  induction tokens generalizing run with
  | nil => rw [List.splitOnPPrepend_nil, List.reverse_reverse, runsFrom]
  | cons token tokens ih =>
    rw [List.splitOnPPrepend_cons_eq_if, runsFrom]
    by_cases h : token = [',']
    · rw [if_pos (decide_eq_true h), if_pos h, List.reverse_reverse, ← ih]
      exact List.filter_append [run] _
    · rw [if_neg (mt of_decide_eq_true h), if_neg h, ← ih, List.reverse_append]
      rfl

theorem runs_eq_runsFrom : runs tokens = runsFrom [] tokens := by
  rw [runs, List.splitOnP_eq_splitOnPPrepend]
  exact @filter_splitOnPPrepend [] tokens

theorem flatten_runsFrom : (runsFrom run tokens).flatten = run ++ conditionsOf tokens := by
  have hrun : ∀ run : List Token, ([run].filter (· ≠ [])).flatten = run := by
    intro run
    by_cases h : run = [] <;> simp [h]
  induction tokens generalizing run with
  | nil => rw [runsFrom, hrun, conditionsOf, List.filter_nil, List.append_nil]
  | cons token tokens ih =>
    rw [runsFrom]
    by_cases h : token = [',']
    · rw [if_pos h, List.flatten_append, hrun, ih, h, conditionsOf_comma]
      rfl
    · rw [if_neg h, ih, conditionsOf_cons h, List.append_assoc]
      rfl

theorem flatten_flatMap_runs {body : List (List Token)} :
    (body.flatMap runs).flatten = conditionsOf body.flatten := by
  induction body with
  | nil => rfl
  | cons tokens body ih =>
    rw [List.flatMap_cons, List.flatten_append, ih, runs_eq_runsFrom, flatten_runsFrom]
    exact (List.filter_append _ _).symm

theorem run_ne_nil {body : List (List Token)} {run : List Token} (h : run ∈ body.flatMap runs) :
    run ≠ [] := by
  obtain ⟨tokens, _, hrun⟩ := List.mem_flatMap.mp h
  exact of_decide_eq_true (List.mem_filter.mp hrun).2

theorem run_subset {body : List (List Token)} {run : List Token} (h : run ∈ body.flatMap runs) :
    run ⊆ conditionsOf body.flatten := by
  intro token htoken
  rw [← flatten_flatMap_runs]
  exact List.mem_flatten.mpr ⟨run, h, htoken⟩

/-- A block has a run of conditions if it has a condition. -/
theorem flatMap_runs_ne_nil_iff {body : List (List Token)} :
    body.flatMap runs ≠ [] ↔ conditionsOf body.flatten ≠ [] := by
  rw [← flatten_flatMap_runs]
  apply not_congr
  constructor
  · intro h
    rw [h]
    rfl
  · intro h
    apply List.eq_nil_iff_forall_not_mem.mpr
    intro run hrun
    exact run_ne_nil hrun (List.flatten_eq_nil_iff.mp h run hrun)

end Runs

section Blocks

variable {condition : ConditionReader A} {line : Nat}

/-- Read tokens of a block up to a point where it goes on. -/
def feed (condition : ConditionReader A) (line : Nat) :
    List Token → Block A → Notes A → Except (Halt LoadFault) (Block A × Notes A)
  | [], block, notes => .ok (block, notes)
  | token :: rest, block, notes =>
    if token = [','] then feed condition line rest block.endGroup notes
    else do
      let (p, notes) ← (condition line token notes).mapError (Halt.map .predicate)
      feed condition line rest (block.add p) notes

theorem readBlock_append {inner rest : List Token} {block : Block A} {n : Notes A}
    (h : [']'] ∉ inner) :
    readBlock condition line (inner ++ rest) block n =
      feed condition line inner block n >>= fun (block, notes) =>
        readBlock condition line rest block notes := by
  induction inner generalizing block n with
  | nil => rfl
  | cons token inner ih =>
    rw [List.cons_append, readBlock.eq_def, feed]
    dsimp only
    have hinner : [']'] ∉ inner := fun hmem => h (List.mem_cons_of_mem _ hmem)
    split
    · exact ih hinner
    · rw [if_neg fun heq : token = [']'] => h (heq ▸ List.mem_cons_self)]
      cases condition line token n with
      | error halt => rfl
      | ok result => exact ih hinner

variable {names all : List String} {tags : List (Tag A)} {n : Notes A} {block : Block A}
variable {run tokens : List Token}

theorem endGroup_eq (hgroup : block.group = V.predicates (place all) run)
    (hrun : ∀ token ∈ run, V.Accepts token) :
    block.endGroup =
      { block with
        ended := block.ended ++ ([run].filter (· ≠ [])).map (V.predicates (place all))
        group := [] } := by
  rw [Block.endGroup, hgroup]
  cases run with
  | nil =>
    obtain ⟨name, ended, group⟩ := block
    cases hgroup
    simp [Vocabulary.predicates]
  | cons token run =>
    obtain ⟨p, hp⟩ := hrun token List.mem_cons_self (place all)
    simp [Vocabulary.predicates_cons hp]

theorem feed_passes (line : Nat) (h : Accounts names tags n.ledger)
    (hall : names ++ references (conditionsOf tokens) <+: all)
    (hgroup : block.group = V.predicates (place all) run) (hrun : ∀ token ∈ run, V.Accepts token) :
    Passes (feed (readAfresh V) line tokens block n)
      (∀ token ∈ conditionsOf tokens, V.Accepts token) fun s =>
        s.1.endGroup =
          { block with
            ended := block.ended ++ (runsFrom run tokens).map (V.predicates (place all))
            group := [] } ∧
          Accounts (names ++ references (conditionsOf tokens)) tags s.2.ledger := by
  induction tokens generalizing names n block run with
  | nil =>
    exact .ok (List.forall_mem_nil _)
      ⟨endGroup_eq hgroup hrun, (List.append_nil names).symm ▸ h⟩
  | cons token tokens ih =>
    rw [feed, runsFrom]
    by_cases hcomma : token = [',']
    · subst hcomma
      rw [conditionsOf_comma] at hall ⊢
      rw [if_pos rfl, if_pos rfl, endGroup_eq hgroup hrun]
      apply (ih h hall rfl (List.forall_mem_nil _)).congr Iff.rfl
      rintro s ⟨hs, hafter⟩
      refine ⟨?_, hafter⟩
      rw [hs, List.map_append, List.append_assoc]
    · rw [conditionsOf_cons hcomma, references_cons, ← List.append_assoc] at hall ⊢
      rw [if_neg hcomma, if_neg hcomma, List.forall_mem_cons]
      apply (readAfresh_passes line h ((List.prefix_append _ _).trans hall)).mapError.bind
      rintro ⟨p, after⟩ haccepts ⟨hp, hafter⟩
      apply ih hafter hall
      · rw [Vocabulary.predicates_snoc hp, ← hgroup]
        rfl
      · intro other hother
        rcases List.mem_append.mp hother with hother | hother
        · exact hrun other hother
        · exact List.mem_singleton.mp hother ▸ haccepts

theorem endGroup_name : block.endGroup.name = block.name := by
  unfold Block.endGroup
  split <;> rfl

theorem readBlock_closing_passes :
    Passes (readBlock condition line [[']']] block n) (block.endGroup.ended ≠ []) fun s =>
      s.1 = none ∧ s.2.ledger = n.ledger.define block.name block.endGroup.ended := by
  unfold readBlock
  rw [if_neg (by simp), if_pos rfl]
  cases hended : block.endGroup.ended with
  | nil => exact .error fun h => h rfl
  | cons group groups => exact .ok (List.cons_ne_nil _ _) ⟨rfl, rfl⟩

/-- A line without the closing bracket lets the block go on. -/
theorem readBlock_open_passes (line : Nat) (hopen : [']'] ∉ tokens)
    (h : Accounts names tags n.ledger)
    (hall : names ++ references (conditionsOf tokens) <+: all) (hgroup : block.group = []) :
    Passes (readBlock (readAfresh V) line tokens block n)
      (∀ token ∈ conditionsOf tokens, V.Accepts token) fun s =>
        s.1 = some { block with
          ended := block.ended ++ (runs tokens).map (V.predicates (place all)), group := [] } ∧
        Accounts (names ++ references (conditionsOf tokens)) tags s.2.ledger := by
  rw [← List.append_nil tokens, readBlock_append hopen, List.append_nil, runs_eq_runsFrom]
  apply (feed_passes line h hall hgroup (List.forall_mem_nil _)).map
  rintro s ⟨hs, hnotes⟩
  exact ⟨congrArg some hs, hnotes⟩

/-- A line that ends with the closing bracket defines the tag. -/
theorem readBlock_closed_passes (line : Nat) (hinner : [']'] ∉ tokens)
    (h : Accounts names tags n.ledger)
    (hall : names ++ references (conditionsOf tokens) <+: all) (hgroup : block.group = [])
    (hname : block.name ∈ names) (hnew : block.name ∉ tags.map (·.name)) :
    Passes (readBlock (readAfresh V) line (tokens ++ [[']']]) block n)
      ((∀ token ∈ conditionsOf tokens, V.Accepts token) ∧
        block.ended ++ (runs tokens).map (V.predicates (place all)) ≠ []) fun s =>
        s.1 = none ∧
          Accounts (names ++ references (conditionsOf tokens))
            (tags ++ [⟨block.name,
              block.ended ++ (runs tokens).map (V.predicates (place all))⟩]) s.2.ledger := by
  rw [readBlock_append hinner, runs_eq_runsFrom]
  apply (feed_passes line h hall hgroup (List.forall_mem_nil _)).bind
  rintro ⟨after, notes⟩ _ ⟨hafter, hnotes⟩
  dsimp only at hafter hnotes ⊢
  have hended := congrArg Block.ended hafter
  have hafterName : after.name = block.name := by
    rw [← endGroup_name, hafter]
  dsimp only at hended
  rw [← hended]
  apply readBlock_closing_passes.congr Iff.rfl
  rintro ⟨next, last⟩ ⟨hnext, hlast⟩
  refine ⟨hnext, ?_⟩
  rw [hlast, hafterName]
  exact hnotes.define (List.mem_append_left _ hname) hnew

/-- Read what a line adds to a block, and then more lines. -/
def resume (V : Vocabulary A M) (condition : ConditionReader A) (line : Nat) (tokens : List Token)
    (block : Block A) (d : Draft A M) (lines : List (List Token)) :
    Except (Halt LoadError) (Draft A M) := do
  let (block, notes) ← (readBlock condition line tokens block d.notes).mapError
    (Halt.map (LoadError.mk line))
  lines.foldlM (Draft.readTokens V condition) { d with notes, block, lines := line }

theorem foldlM_inside {d : Draft A M} (h : d.block = some block) {lines : List (List Token)} :
    (tokens :: lines).foldlM (Draft.readTokens V condition) d =
      resume V condition (d.lines + 1) (continuation tokens) block d lines := by
  rw [List.foldlM_cons, Draft.readTokens, h, resume]
  dsimp only
  rw [Draft.readInside]
  cases readBlock condition (d.lines + 1) (continuation tokens) block d.notes <;> rfl

theorem Enclosed.continued {first next : List Token} {used body : List (List Token)}
    (h : [']'] ∉ first) (tail : Enclosed (continuation next) used body) :
    Enclosed first (next :: used) (first :: body) := by
  cases next with
  | nil => exact .further h (by simp) tail
  | cons token rest =>
    cases hcomment : token.isComment with
    | false =>
      have hkept : Enclosed (token :: rest) used body := by
        simpa [continuation, hcomment] using tail
      exact .further h (by simpa using hcomment) hkept
    | true =>
      have hleft : Enclosed [] used body := by simpa [continuation, hcomment] using tail
      exact .comment h hcomment hleft

/-- The lines of a block one after the other, each as the reader goes on with it. -/
@[elab_as_elim]
theorem Enclosed.line_induction
    {motive : ∀ first used body, Enclosed first used body → Prop}
    (closed : ∀ {inner : List Token} (h : [']'] ∉ inner), motive _ _ _ (.closed h))
    (further : ∀ {first next : List Token} {used body : List (List Token)} (h : [']'] ∉ first)
      (tail : Enclosed (continuation next) used body), motive _ _ _ tail →
        motive _ _ _ (.continued h tail))
    {first : List Token} {used body : List (List Token)} (h : Enclosed first used body) :
    motive _ _ _ h := by
  have transport {kept other : List Token} {used body : List (List Token)}
      {htail : Enclosed kept used body} (heq : other = kept) (ih : motive _ _ _ htail) :
      ∃ hother : Enclosed other used body, motive _ _ _ hother := by
    subst heq
    exact ⟨htail, ih⟩
  induction h with
  | closed h => exact closed h
  | @further first next used body h hnext tail ih =>
    have hkept : continuation next = next := by
      cases next with
      | nil => rfl
      | cons token rest => simp [continuation, hnext token rfl]
    obtain ⟨htail, hmotive⟩ := transport hkept ih
    exact further h htail hmotive
  | @comment first rest mark used body h hmark tail ih =>
    have hleft : continuation (mark :: rest) = [] := by simp [continuation, hmark]
    obtain ⟨htail, hmotive⟩ := transport hleft ih
    exact further h htail hmotive

/-- A block passes when its conditions are accepted and there is a group; it leaves its tag. -/
theorem enclosed_passes {first : List Token} {used body : List (List Token)}
    (henclosed : Enclosed first used body) {d : Draft A M} (h : Accounts names tags d.notes.ledger)
    (hall : names ++ references (conditionsOf body.flatten) <+: all) (hgroup : block.group = [])
    (hname : block.name ∈ names) (hnew : block.name ∉ tags.map (·.name)) :
    Passes (resume V (readAfresh V) line first block d used)
      ((∀ token ∈ conditionsOf body.flatten, V.Accepts token) ∧
        block.ended ++ (body.flatMap runs).map (V.predicates (place all)) ≠ []) fun d' =>
      d'.block = none ∧ d'.rules = d.rules ∧ d'.lines = line + used.length ∧
        Accounts (names ++ references (conditionsOf body.flatten))
          (tags ++ [⟨block.name,
            block.ended ++ (body.flatMap runs).map (V.predicates (place all))⟩])
          d'.notes.ledger := by
  induction henclosed using Enclosed.line_induction generalizing line block d names with
  | @closed inner hinner =>
    rw [List.flatten_singleton] at hall ⊢
    rw [List.flatMap_singleton, resume]
    apply (readBlock_closed_passes line hinner h hall hgroup hname hnew).mapError.map
    rintro s ⟨hs, hafter⟩
    exact ⟨hs, rfl, rfl, hafter⟩
  | @further first next used body hfirst tail ih =>
    rw [List.flatten_cons, conditionsOf_append] at hall ⊢
    rw [references_append, ← List.append_assoc] at hall ⊢
    rw [List.forall_mem_append, List.flatMap_cons, List.map_append, ← List.append_assoc, and_assoc,
      resume]
    have hline := readBlock_open_passes (V := V) line hfirst h ((List.prefix_append _ _).trans hall)
      hgroup
    apply hline.mapError.bind
    rintro ⟨_, notes⟩ _ ⟨rfl, hnotes⟩
    dsimp only at hnotes ⊢
    rw [foldlM_inside rfl]
    refine Passes.congr (ih ?_ hall ?_ ?_ ?_) Iff.rfl ?_
    · exact hnotes
    · rfl
    · exact List.mem_append_left _ hname
    · exact hnew
    · rintro d' ⟨hblock, hrules, hlines, hd⟩
      refine ⟨hblock, hrules, ?_, hd⟩
      rw [hlines, List.length_cons, Nat.add_assoc, Nat.add_comm 1]

theorem block_passes {name : Token} {first : List Token} {used body : List (List Token)}
    {d : Draft A M} (line : Nat) (henclosed : Enclosed first used body)
    (h : Accounts names tags d.notes.ledger)
    (hall : names ++ (Item.block name body).mentions <+: all)
    (hnew : String.ofList name ∉ tags.map (·.name)) :
    Passes (resume V (readAfresh V) line first { name := String.ofList name }
        { d with
          notes := { d.notes with ledger := d.notes.ledger.mention (String.ofList name) } } used)
      ((Item.block name body).Accepted V) fun d' =>
      d'.block = none ∧ d'.rules = d.rules ∧ d'.lines = line + used.length ∧
        ∃ tag, some tag = (Item.block name body).tag? V (place all) ∧
          Accounts (names ++ (Item.block name body).mentions) (tags ++ [tag]) d'.notes.ledger := by
  rw [Item.mentions, ← List.append_assoc] at hall ⊢
  have haccepted : ((∀ token ∈ conditionsOf body.flatten, V.Accepts token) ∧
      [] ++ (body.flatMap runs).map (V.predicates (place all)) ≠ []) ↔
      (Item.block name body).Accepted V := by
    rw [List.nil_append, Ne, List.map_eq_nil_iff, ← Ne, flatMap_runs_ne_nil_iff]
    rfl
  refine Passes.congr (enclosed_passes henclosed ?_ hall rfl ?_ hnew) haccepted ?_
  · exact h.mention
  · exact List.mem_append_right _ (List.mem_singleton_self _)
  · rintro d' ⟨hblock, hrules, hlines, hledger⟩
    exact ⟨hblock, hrules, hlines, _, rfl, hledger⟩

end Blocks

end PriorityRules.Reading
