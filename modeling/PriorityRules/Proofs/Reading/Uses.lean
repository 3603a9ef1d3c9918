import PriorityRules.Proofs.Reading.Location

/-! # What the tokens of a text are used for

From the line that they are on, and from whether a block is open there, it is clear which tokens are
read as conditions and which as effects, whatever the vocabulary. A condition is read for what
remains of it without the negations in front, and only the first time takes a call of the host.
-/

namespace PriorityRules

namespace Token

variable {token inner : Token}

def stripped (token : Token) : Token := token.dropWhile (· = '!')

theorem stripped_negation : stripped ('!' :: inner) = inner.stripped := rfl

theorem stripped_of_plain (h : ∀ inner, token ≠ '!' :: inner) : token.stripped = token := by
  cases token with
  | nil => rfl
  | cons c rest =>
    have hc : c ≠ '!' := fun heq => h rest (heq ▸ rfl)
    rw [stripped, List.dropWhile_cons_of_neg (by simpa using hc)]

end Token

namespace Reading

inductive Use where
  | condition (token : Token)
  | effect (word : Token)
  deriving DecidableEq, Repr

/-- The conditions on a line of a block, up to the closing bracket. -/
def usesWithin (tokens : List Token) : List Use :=
  (conditionsOf (tokens.takeWhile (· ≠ [']']))).map .condition

def usesOfRule (body : List Token) : List Use :=
  (body.takeWhile (· ≠ Token.arrow)).map .condition ++
    (body.dropWhile (· ≠ Token.arrow)).tail.map .effect

def usesOn (inside : Bool) (tokens : List Token) : List Use :=
  if inside then usesWithin (continuation tokens)
  else
    match Line.ofTokens tokens with
    | .rule _ body => usesOfRule body
    | .block _ (['['] :: rest) => usesWithin rest
    | _ => []

def opensAfter (inside : Bool) (tokens : List Token) : Bool :=
  if inside then [']'] ∉ continuation tokens
  else
    match Line.ofTokens tokens with
    | .block _ (['['] :: rest) => [']'] ∉ rest
    | _ => false

def usesFrom : Bool → List (List Token) → List Use
  | _, [] => []
  | inside, tokens :: lines => usesOn inside tokens ++ usesFrom (opensAfter inside tokens) lines

def insideAfter (inside : Bool) (lines : List (List Token)) : Bool := lines.foldl opensAfter inside

section Uses

variable {inside : Bool} {tokens rest : List Token} {token : Token}

/-- A line of a block is kept with a word on it if it does not begin as a comment. -/
theorem continuation_of_word {before after : List Token}
    (h : ∀ first ∈ (before ++ [token]).head?, first.isComment = false) :
    continuation (before ++ token :: after) = before ++ token :: after := by
  have hany : (before ++ token :: after).head?.any Token.isComment = false := by
    cases before with
    | nil => exact h token rfl
    | cons first before => exact h first rfl
  rw [continuation, hany]
  rfl

theorem usesWithin_comma : usesWithin ([','] :: rest) = usesWithin rest := by
  rw [usesWithin, List.takeWhile_cons_of_pos (by decide), conditionsOf_comma, usesWithin]

theorem usesWithin_bracket : usesWithin ([']'] :: rest) = [] := by
  rw [usesWithin, List.takeWhile_cons_of_neg (by decide)]
  rfl

theorem usesWithin_condition (hcomma : token ≠ [',']) (hbracket : token ≠ [']']) :
    usesWithin (token :: rest) = .condition token :: usesWithin rest := by
  rw [usesWithin, List.takeWhile_cons_of_pos (by simpa using hbracket), conditionsOf_cons hcomma,
    List.map_cons, usesWithin]

theorem usesOn_skipped (h : Line.ofTokens tokens = .skipped) : usesOn false tokens = [] := by
  simp [usesOn, h]

theorem usesOn_rule {level : Int} {body : List Token}
    (h : Line.ofTokens tokens = .rule level body) : usesOn false tokens = usesOfRule body := by
  simp [usesOn, h]

theorem usesOn_block {name : Token} (h : Line.ofTokens tokens = .block name (['['] :: rest)) :
    usesOn false tokens = usesWithin rest ∧ opensAfter false tokens = decide ([']'] ∉ rest) := by
  simp [usesOn, opensAfter, h]

theorem opensAfter_of_ne_block (h : ∀ name body, Line.ofTokens tokens ≠ .block name body) :
    opensAfter false tokens = false := by
  rw [opensAfter, if_neg Bool.false_ne_true]
  split
  · rename_i name rest hline
    exact absurd hline (h name _)
  · rfl

end Uses

section Opens

variable {A M : Type} {V : Vocabulary A M} {condition : ConditionReader A} {n : Notes A}
variable {d : Draft A M} {line : Nat} {tokens : List Token}

theorem readBlock_opens {block : Block A} :
    Ends (fun _ => True) (fun s => s.1.isSome = decide ([']'] ∉ tokens))
      (readBlock condition line tokens block n) := by
  induction tokens generalizing block n with
  | nil => exact rfl
  | cons token rest ih =>
    unfold readBlock
    split
    · rename_i hcomma
      subst hcomma
      simpa using ih
    · split
      · rename_i hbracket
        subst hbracket
        split
        · trivial
        · trivial
        · simp [Ends]
      · rename_i hbracket
        refine Ends.bind (.of_ok fun _ _ => trivial) fun s _ => ?_
        simpa [Ne.symm hbracket] using ih

theorem openBlock_opens {name : Token} {body : List Token}
    (hline : Line.ofTokens tokens = .block name body) :
    Ends (fun _ => True) (fun s => s.1.isSome = opensAfter false tokens)
      (openBlock condition line name body n) := by
  unfold openBlock
  split
  · rw [(usesOn_block hline).2]
    dsimp only
    split
    · trivial
    · exact readBlock_opens
  · trivial

/-- Whatever the conditions are read as, a block is open after a line as the tokens say. -/
theorem readTokens_opens :
    Ends (fun _ => True) (fun d' => d'.block.isSome = opensAfter d.block.isSome tokens)
      (d.readTokens V condition tokens) := by
  rw [Draft.readTokens]
  refine Ends.mapError (Q := fun _ => True) ?_ fun _ _ => trivial
  cases hblock : d.block with
  | some block => exact readBlock_opens.bind fun s hs => hs
  | none =>
    dsimp only
    rw [Option.isSome_none, Draft.readOutside]
    split
    · rename_i hline
      rw [opensAfter_of_ne_block (by simp [hline])]
      exact hblock ▸ rfl
    · rename_i hline
      rw [opensAfter_of_ne_block (by simp [hline])]
      exact Ends.bind (.of_ok fun _ _ => trivial) fun s _ => hblock ▸ rfl
    · rename_i hline
      exact (openBlock_opens hline).bind fun s hs => hs
    · trivial

theorem opens_of_foldlM {lines : List (List Token)} {d' : Draft A M}
    (hread : lines.foldlM (Draft.readTokens V condition) d = .ok d') :
    d'.block.isSome = insideAfter d.block.isSome lines := by
  induction lines generalizing d with
  | nil =>
    cases hread
    rfl
  | cons tokens lines ih =>
    rw [List.foldlM_cons] at hread
    obtain ⟨next, hnext, hrest⟩ := bind_eq_ok.mp hread
    have hopens : Ends _ (fun d' => d'.block.isSome = opensAfter d.block.isSome tokens)
      (d.readTokens V condition tokens) := readTokens_opens
    rw [hnext] at hopens
    rw [ih hrest, show next.block.isSome = _ from hopens]
    rfl

end Opens

end Reading

namespace Vocabulary

open Reading

variable {A M : Type} (V : Vocabulary A M)

/-- The call for a token without negations in front. References and comparisons do without. -/
def hostCall? : Token → Option Call
  | '%' :: _ => none
  | '(' :: _ => none
  | mark :: rest =>
    if (V.marks.lookup mark).isSome then some (.marked mark (String.ofList rest))
    else V.fallback.map fun _ => .unmarked (String.ofList (mark :: rest))
  | [] => V.fallback.map fun _ => .unmarked ""

/-- The calls for uses, given the conditions that have been read already. -/
def callsFrom (seen : List Token) : List Use → List Call
  | [] => []
  | .condition token :: rest =>
    (if token.stripped ∈ seen then [] else (V.hostCall? token.stripped).toList) ++
      callsFrom (seen ++ [token.stripped]) rest
  | .effect word :: rest => .effect (String.ofList word) :: callsFrom seen rest

def callsOf (uses : List Use) : List Call := V.callsFrom [] uses

end Vocabulary

end PriorityRules
