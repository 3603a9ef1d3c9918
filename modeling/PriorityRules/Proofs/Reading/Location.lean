import PriorityRules.Proofs.Engine.Loading
import PriorityRules.Proofs.Reading.Pieces

/-! # Where a fault is found

A line that is at fault stops the reading: the fault is reported on that line, whatever follows
it, and the lines before it are not at fault. The other faults are those of a text that has been
read to its end. A block that is still open is reported on the last line, and a name that no block
opens on the line of its first reference.
-/

namespace PriorityRules

variable {A M : Type}

/-- The fault is one of the text as a whole, and not one of a line. -/
def LoadFault.FoundAtEnd : LoadFault → Prop
  | .unclosedTag _ | .undefinedTag _ => True
  | _ => False

namespace Text

/-- The text up to the end of its line `k`, with the ending of that line. -/
def firstLines : Nat → List Char → List Char
  | 0, _ => []
  | _, [] => []
  | k + 1, '\n' :: rest => '\n' :: firstLines k rest
  | k + 1, c :: rest => c :: firstLines (k + 1) rest

theorem take_consLine {k : Nat} {c : Char} {ls : List Line} :
    (consLine c ls).take (k + 1) = consLine c (ls.take (k + 1)) := by
  cases ls with
  | nil => simp [consLine]
  | cons line rest => rfl

theorem firstLines_cons {k : Nat} {c : Char} {rest : List Char} (hfeed : c ≠ '\n') :
    firstLines (k + 1) (c :: rest) = c :: firstLines (k + 1) rest := by
  rw [firstLines]
  exact hfeed

theorem head?_firstLines {k : Nat} {text : List Char} :
    (firstLines (k + 1) text).head? = text.head? := by
  cases text with
  | nil => rfl
  | cons c rest =>
    by_cases hfeed : c = '\n'
    · subst hfeed
      rfl
    · rw [firstLines_cons hfeed]
      rfl

theorem lines_firstLines {k : Nat} {text : List Char} :
    lines (firstLines k text) = (lines text).take k := by
  fun_induction lines text generalizing k with
  | case1 => cases k <;> rfl
  | case2 rest ih =>
    cases k with
    | zero => rfl
    | succ k => rw [firstLines, lines, ih, List.take_succ_cons]
  | case3 rest ih =>
    cases k with
    | zero => rfl
    | succ k => rw [firstLines_cons (by decide), firstLines, lines, ih, List.take_succ_cons]
  | case4 c rest hfeed hreturn ih =>
    cases k with
    | zero => rfl
    | succ k =>
      rw [firstLines_cons hfeed, lines_cons hfeed, ih, take_consLine]
      intro hc hhead
      rw [head?_firstLines] at hhead
      obtain ⟨rest', rfl⟩ := List.head?_eq_some_iff.mp hhead
      exact hreturn rest' hc rfl

end Text

namespace Reading

/-- If the computation stops then the fault satisfies `Q`, and otherwise the result satisfies
`R`. -/
def Ends {E σ : Type} (Q : E → Prop) (R : σ → Prop) : Except (Halt E) σ → Prop
  | .error halt => Q halt.fault
  | .ok s => R s

namespace Ends

variable {E F σ τ : Type} {Q : E → Prop} {R : σ → Prop} {T : τ → Prop} {x : Except (Halt E) σ}

theorem of_ok (h : ∀ s, x = .ok s → R s) : Ends (fun _ => True) R x := by
  cases x with
  | error halt => trivial
  | ok s => exact h s rfl

theorem bind (h : Ends Q R x) {f : σ → Except (Halt E) τ} (hf : ∀ s, R s → Ends Q T (f s)) :
    Ends Q T (x >>= f) := by
  cases x with
  | error halt => exact h
  | ok s => exact hf s h

theorem map (h : Ends Q R x) {f : σ → τ} (hf : ∀ s, R s → T (f s)) : Ends Q T (x.map f) := by
  cases x with
  | error halt => exact h
  | ok s => exact hf s h

theorem mapError {Q' : F → Prop} (h : Ends Q R x) {f : E → F} (hf : ∀ e, Q e → Q' (f e)) :
    Ends Q' R (x.mapError (Halt.map f)) := by
  cases x with
  | error halt => exact hf _ h
  | ok s => exact h

end Ends

def OfLine (fault : LoadFault) : Prop := ¬fault.FoundAtEnd

theorem Ends.predicate {σ : Type} {R : σ → Prop} {x : Except (Halt PredicateFault) σ}
    (h : Ends (fun _ => True) R x) : Ends OfLine R (x.mapError (Halt.map .predicate)) :=
  h.mapError fun _ _ => id

/-- The first reference to the name is on a line up to `last`. A name without groups has been
referred to, unless it is the pending one, whose block is open. -/
structure Entry.Dated (last : Nat) (pending : Option String) (e : Entry A) : Prop where
  within : ∀ line ∈ e.firstReference, 1 ≤ line ∧ line ≤ last
  cause : e.groups = none → e.firstReference = none → e.name ∈ pending

def Ledger.Dated (last : Nat) (pending : Option String) (l : Ledger A) : Prop :=
  ∀ e ∈ l, e.Dated last pending

namespace Ledger

variable {l : Ledger A} {last line : Nat} {pending : Option String} {name : String} {e : Entry A}

theorem mem_mention (h : e ∈ l.mention name) : e ∈ l ∨ e = ⟨name, none, none⟩ := by
  rw [mention] at h
  split at h
  · exact .inl h
  · exact (List.mem_append.mp h).imp_right List.mem_singleton.mp

namespace Dated

theorem next (h : l.Dated last pending) : l.Dated (last + 1) pending := by
  intro e he
  refine ⟨fun line hline => ?_, (h e he).cause⟩
  obtain ⟨hfirst, hlast⟩ := (h e he).within line hline
  exact ⟨hfirst, Nat.le_succ_of_le hlast⟩

theorem mention (h : l.Dated last none) : (l.mention name).Dated last (some name) := by
  intro e he
  rcases mem_mention he with he | rfl
  · exact ⟨(h e he).within, fun hgroups hreference =>
      absurd ((h e he).cause hgroups hreference) (Option.not_mem_none _)⟩
  · exact ⟨nofun, fun _ _ => rfl⟩

theorem refer (h : l.Dated last pending) (hline : 1 ≤ line ∧ line ≤ last) :
    (l.refer name line).Dated last pending := by
  intro e' he'
  rw [Ledger.refer, update] at he'
  obtain ⟨e, he, rfl⟩ := List.mem_map.mp he'
  rcases mem_mention he with he | rfl
  · split
    · refine ⟨fun first hfirst => ?_, fun _ hreference => ?_⟩
      · rcases Option.or_eq_some_iff.mp hfirst with hfirst | ⟨_, hfirst⟩
        · exact (h e he).within first hfirst
        · exact Option.some.inj hfirst ▸ hline
      · cases (Option.or_eq_none_iff.mp hreference).2
    · exact h e he
  · rw [if_pos rfl]
    refine ⟨fun first hfirst => ?_, fun _ hreference => ?_⟩
    · exact Option.some.inj hfirst ▸ hline
    · cases hreference

theorem define (h : l.Dated last (some name)) {groups : List (Group A)} :
    (l.define name groups).Dated last none := by
  intro e' he'
  rw [Ledger.define, update] at he'
  obtain ⟨e, he, rfl⟩ := List.mem_map.mp he'
  split
  · exact ⟨(h e he).within, fun hgroups => absurd hgroups (Option.some_ne_none _)⟩
  · rename_i hname
    refine ⟨(h e he).within, fun hgroups hreference => ?_⟩
    have heq := (h e he).cause hgroups hreference
    exact absurd (Option.some.inj heq).symm hname

/-- A name that is found undefined when no block is open has been referred to. -/
theorem line_of_tags (h : l.Dated last none) {error : LoadError} (htags : l.tags = .error error) :
    1 ≤ error.line ∧ error.line ≤ last ∧ ∃ name, error.fault = .undefinedTag name := by
  obtain ⟨e, hfind, rfl⟩ := tags_eq_error_iff.mp htags
  have he := h e (List.mem_of_find?_eq_some hfind)
  obtain ⟨line, hline⟩ := Option.ne_none_iff_exists'.mp fun hreference =>
    Option.not_mem_none _ (he.cause (by simpa using List.find?_some hfind) hreference)
  obtain ⟨hfirst, hlast⟩ := he.within line hline
  rw [hline]
  exact ⟨hfirst, hlast, e.name, rfl⟩

end Dated

end Ledger

section Line

variable {V : Vocabulary A M} {n : Notes A} {line : Nat} {pending : Option String}

theorem readPlain_ends {token : Token} (hline : 1 ≤ line) (h : n.ledger.Dated line pending) :
    Ends (fun _ => True) (·.2.ledger.Dated line pending) (readPlain V line token n) := by
  unfold readPlain
  split
  · trivial
  · exact h.refer ⟨hline, Nat.le_refl line⟩
  · split
    · exact h
    · trivial
  · split
    · rename_i call answer _
      cases answer with
      | error message => trivial
      | ok a => exact h
    · trivial

theorem reuse_ends {token : Token}
    {read : Notes A → Except (Halt PredicateFault) (Predicate A × Notes A)}
    (h : n.ledger.Dated line pending)
    (hread : Ends (fun _ => True) (·.2.ledger.Dated line pending) (read n)) :
    Ends (fun _ => True) (·.2.ledger.Dated line pending) (n.reuse token read) := by
  unfold Notes.reuse
  split
  · exact h
  · exact hread.map fun _ hs => hs

theorem readCondition_ends (token : Token) (hline : 1 ≤ line) (h : n.ledger.Dated line pending) :
    Ends (fun _ => True) (·.2.ledger.Dated line pending) (readCondition V line token n) := by
  induction token using Token.negations with
  | sign => trivial
  | negation inner hinner ih =>
    rw [readCondition]
    · exact reuse_ends h (ih.map fun _ hs => hs)
    · exact hinner
  | plain token hplain =>
    rw [readCondition]
    · exact reuse_ends h (readPlain_ends hline h)
    · exact hplain []
    · exact hplain

theorem readEach_ends {E α τ : Type} {Q : E → Prop}
    {read : τ → Notes A → Except (Halt E) (α × Notes A)} (pieces : List τ)
    (hread : ∀ piece ∈ pieces, ∀ n : Notes A, n.ledger.Dated line pending →
      Ends Q (·.2.ledger.Dated line pending) (read piece n))
    (h : n.ledger.Dated line pending) :
    Ends Q (·.2.ledger.Dated line pending) (readEach read pieces n) := by
  induction pieces generalizing n with
  | nil => exact h
  | cons piece pieces ih =>
    obtain ⟨hpiece, hpieces⟩ := List.forall_mem_cons.mp hread
    rw [readEach]
    apply (hpiece n h).bind
    intro first hfirst
    apply (ih hpieces hfirst).bind
    exact fun rest hrest => hrest

theorem readRule_ends {level : Int} {body : List Token} (hline : 1 ≤ line)
    (h : n.ledger.Dated line pending) :
    Ends OfLine (·.2.ledger.Dated line pending)
      (readRule V (readCondition V) level line body n) := by
  rw [readRule]
  have hconditions := readEach_ends (body.takeWhile (· ≠ Token.arrow))
    (fun token _ _ h => readCondition_ends (V := V) token hline h) h
  apply hconditions.predicate.bind
  rintro ⟨conditions, notes⟩ hnotes
  dsimp only
  split
  · exact id
  · refine (readEach_ends _ (fun word _ n hn => ?_) hnotes).bind ?_
    · cases hanswer : V.effects (String.ofList word) with
      | error message => exact id
      | ok effects => exact hn
    · rintro ⟨effects, last⟩ hlast
      dsimp only
      split
      · exact id
      · exact hlast

theorem endGroup_dated {block : Block A} (h : n.ledger.Dated line (some block.name)) :
    n.ledger.Dated line (some block.endGroup.name) := by
  rw [endGroup_name]
  exact h

theorem readBlock_ends {tokens : List Token} {block : Block A} (hline : 1 ≤ line)
    (h : n.ledger.Dated line (some block.name)) :
    Ends OfLine (fun s => s.2.ledger.Dated line (s.1.map (·.name)))
      (readBlock (readCondition V) line tokens block n) := by
  induction tokens generalizing block n with
  | nil =>
    exact endGroup_dated h
  | cons token rest ih =>
    unfold readBlock
    split
    · exact ih (endGroup_dated h)
    · split
      · split
        · exact id
        · exact id
        · exact Ledger.Dated.define h
      · apply (readCondition_ends token hline h).predicate.bind
        rintro ⟨p, notes⟩ hnotes
        exact ih hnotes

theorem openBlock_ends {name : Token} {body : List Token} (hline : 1 ≤ line)
    (h : n.ledger.Dated line none) :
    Ends OfLine (fun s => s.2.ledger.Dated line (s.1.map (·.name)))
      (openBlock (readCondition V) line name body n) := by
  unfold openBlock
  split
  · dsimp only
    split
    · exact id
    · exact readBlock_ends hline h.mention
  · exact id

end Line

namespace Draft

variable {V : Vocabulary A M} {d : Draft A M}

/-- The lines put down are among those read so far, and so is the one that opened the block. -/
structure Dated (d : Draft A M) : Prop where
  ledger : d.notes.ledger.Dated d.lines (d.block.map (·.name))
  opened : d.block.isSome → 1 ≤ d.lines

theorem dated_start : ({} : Draft A M).Dated := ⟨List.forall_mem_nil _, nofun⟩

theorem readTokens_ends (h : d.Dated) (tokens : List Token) :
    Ends (fun error => error.line = d.lines + 1 ∧ OfLine error.fault)
      (fun d' => d'.Dated ∧ d'.lines = d.lines + 1)
      (d.readTokens V (readCondition V) tokens) := by
  have hline : 1 ≤ d.lines + 1 := Nat.succ_pos _
  have hnext : d.notes.ledger.Dated (d.lines + 1) (d.block.map (·.name)) := h.ledger.next
  rw [readTokens]
  refine Ends.mapError (Q := OfLine) ?_ fun fault hfault => ⟨rfl, hfault⟩
  cases hblock : d.block with
  | some block =>
    rw [hblock] at hnext
    dsimp only
    rw [readInside]
    exact (readBlock_ends hline hnext).bind fun s hs => ⟨⟨hs, fun _ => hline⟩, rfl⟩
  | none =>
    rw [hblock] at hnext
    dsimp only
    rw [readOutside]
    split
    · exact ⟨⟨hblock ▸ hnext, fun _ => hline⟩, rfl⟩
    · exact (readRule_ends hline hnext).bind fun s hs => ⟨⟨hblock ▸ hs, fun _ => hline⟩, rfl⟩
    · exact (openBlock_ends hline hnext).bind fun s hs => ⟨⟨hs, fun _ => hline⟩, rfl⟩
    · exact id

/-- Lines that stop are stopped by one of them, which the lines before it lead up to. -/
theorem stop_of_foldlM {lines : List (List Token)} (h : d.Dated) {halt : Halt LoadError}
    (hstop : lines.foldlM (readTokens V (readCondition V)) d = .error halt) :
    ∃ k < lines.length, halt.fault.line = d.lines + k + 1 ∧ OfLine halt.fault.fault ∧
      (lines.take (k + 1)).foldlM (readTokens V (readCondition V)) d = .error halt ∧
      ∃ before, (lines.take k).foldlM (readTokens V (readCondition V)) d = .ok before := by
  induction lines generalizing d with
  | nil => cases hstop
  | cons tokens lines ih =>
    have hends := readTokens_ends (V := V) h tokens
    rw [List.foldlM_cons] at hstop
    cases hread : d.readTokens V (readCondition V) tokens with
    | error first =>
      rw [hread] at hstop hends
      cases hstop
      refine ⟨0, Nat.succ_pos _, hends.1, hends.2, ?_, d, rfl⟩
      rw [List.take_succ_cons, List.foldlM_cons, hread]
      rfl
    | ok next =>
      rw [hread] at hstop hends
      obtain ⟨hdated, hlines⟩ := hends
      obtain ⟨k, hk, hline, hfault, hfirst, before, hbefore⟩ := ih hdated hstop
      refine ⟨k + 1, Nat.succ_lt_succ hk, ?_, hfault, ?_, before, ?_⟩
      · rw [hline, hlines, Nat.add_right_comm d.lines 1 k, Nat.add_assoc d.lines k 1]
      · rw [List.take_succ_cons, List.foldlM_cons, hread]
        exact hfirst
      · rw [List.take_succ_cons, List.foldlM_cons, hread]
        exact hbefore

theorem dated_of_foldlM {lines : List (List Token)} {d' : Draft A M} (h : d.Dated)
    (hread : lines.foldlM (readTokens V (readCondition V)) d = .ok d') :
    d'.Dated ∧ d'.lines = d.lines + lines.length := by
  induction lines generalizing d with
  | nil =>
    cases hread
    exact ⟨h, rfl⟩
  | cons tokens lines ih =>
    rw [List.foldlM_cons] at hread
    obtain ⟨next, hnext, hrest⟩ := bind_eq_ok.mp hread
    have hends := readTokens_ends (V := V) h tokens
    rw [hnext] at hends
    obtain ⟨hdated, hlines⟩ := ih hends.1 hrest
    refine ⟨hdated, ?_⟩
    rw [hlines, hends.2, List.length_cons, Nat.add_right_comm, Nat.add_assoc]

theorem fault_of_finish (h : d.Dated) {source : String} {error : LoadError}
    (hfinish : d.finish source = .error error) :
    (∃ name, error.fault = .unclosedTag name ∧ 1 ≤ error.line ∧ error.line = d.lines) ∨
      ∃ name, error.fault = .undefinedTag name ∧ 1 ≤ error.line ∧ error.line ≤ d.lines := by
  obtain ⟨hledger, hopened⟩ := h
  rw [finish] at hfinish
  cases hblock : d.block with
  | some block =>
    rw [hblock] at hfinish hopened
    cases hfinish
    exact .inl ⟨block.name, rfl, hopened rfl, rfl⟩
  | none =>
    rw [hblock] at hfinish hledger
    cases htags : d.notes.ledger.tags with
    | error fault =>
      rw [htags] at hfinish
      cases hfinish
      obtain ⟨hfirst, hlast, name, hname⟩ := hledger.line_of_tags htags
      exact .inr ⟨name, hname, hfirst, hlast⟩
    | ok tags =>
      rw [htags] at hfinish
      cases hfinish

theorem foundAtEnd_of_finish (h : d.Dated) {source : String} {error : LoadError}
    (hfinish : d.finish source = .error error) : error.fault.FoundAtEnd := by
  rcases fault_of_finish h hfinish with ⟨name, hname, _⟩ | ⟨name, hname, _⟩
  · exact hname ▸ trivial
  · exact hname ▸ trivial

end Draft

end Reading

namespace Vocabulary

open Reading

variable (V : Vocabulary A M)

theorem outcome_read {text : String} :
    (V.read text).outcome =
      ((tokenLines text).foldlM (Draft.readTokens V (readCondition V)) {}).mapError (·.fault) >>=
        fun d => d.finish text := by
  have hlines : (tokenLines text).foldlM (Draft.readTokens V (readCondition V)) {} =
      (Text.lines text.toList).foldlM (Draft.readLine V (readCondition V)) {} := List.foldlM_map
  rw [read, readWith, hlines]
  cases (Text.lines text.toList).foldlM (Draft.readLine V (readCondition V)) {} <;> rfl

theorem tokenLines_firstLines {k : Nat} {text : String} :
    tokenLines (String.ofList (Text.firstLines k text.toList)) = (tokenLines text).take k := by
  rw [tokenLines, tokenLines, String.toList_ofList, Text.lines_firstLines, List.map_take]

/-- No line of the text is at fault; the text is a ruleset or it is at fault as a whole. -/
def PassesLines (text : String) : Prop :=
  ∀ error, (V.read text).outcome = .error error → error.fault.FoundAtEnd

variable {V}

theorem passesLines_of_foldlM {text : String} {d : Draft A M}
    (hread : (tokenLines text).foldlM (Draft.readTokens V (readCondition V)) {} = .ok d) :
    V.PassesLines text := by
  intro error h
  rw [outcome_read, hread] at h
  exact Draft.foundAtEnd_of_finish (Draft.dated_of_foldlM Draft.dated_start hread).1 h

/-- The first ones of lines that pass do so on their own. -/
theorem passesLines_of_take {text cut : String} {d : Draft A M} {k : Nat}
    (hread : (tokenLines text).foldlM (Draft.readTokens V (readCondition V)) {} = .ok d)
    (hcut : tokenLines cut = (tokenLines text).take k) : V.PassesLines cut := by
  rw [← List.take_append_drop k (tokenLines text), List.foldlM_append, ← hcut] at hread
  obtain ⟨before, hbefore, _⟩ := bind_eq_ok.mp hread
  exact passesLines_of_foldlM hbefore

/-- The fault is on a line of the text. A fault of that line is found whatever follows it, and no
line before it is at fault; for the other faults no line of the text is. A block that is still open
is reported on the last line. -/
structure Located (V : Vocabulary A M) (text : String) (error : LoadError) : Prop where
  within : 1 ≤ error.line ∧ error.line ≤ (tokenLines text).length
  settled : ¬error.fault.FoundAtEnd → ∀ other,
    (tokenLines other).take error.line = (tokenLines text).take error.line →
      (V.read other).outcome = .error error
  earliest : ¬error.fault.FoundAtEnd → ∀ cut,
    tokenLines cut = (tokenLines text).take (error.line - 1) → V.PassesLines cut
  unclosed : ∀ name, error.fault = .unclosedTag name → error.line = (tokenLines text).length ∧
    ∀ k < (tokenLines text).length, ∀ cut, tokenLines cut = (tokenLines text).take k →
      V.PassesLines cut
  undefined : ∀ name, error.fault = .undefinedTag name → ∀ k cut,
    tokenLines cut = (tokenLines text).take k → V.PassesLines cut

theorem located_of_stop {text : String} {halt : Halt LoadError}
    (hread : (tokenLines text).foldlM (Draft.readTokens V (readCondition V)) {} = .error halt) :
    Located V text halt.fault := by
  obtain ⟨k, hk, hline, hfault, hfirst, before, hbefore⟩ :=
    Draft.stop_of_foldlM Draft.dated_start hread
  rw [Nat.zero_add] at hline
  rw [← hline] at hfirst
  constructor
  · rw [hline]
    exact ⟨Nat.succ_pos k, hk⟩
  · intro _ other hother
    rw [outcome_read, ← List.take_append_drop halt.fault.line (tokenLines other),
      List.foldlM_append, hother, hfirst]
    rfl
  · intro _ cut hcut
    rw [hline, Nat.add_sub_cancel] at hcut
    exact passesLines_of_foldlM (hcut ▸ hbefore)
  · exact fun name hname => absurd (hname ▸ trivial) hfault
  · exact fun name hname => absurd (hname ▸ trivial) hfault

theorem located_of_finish {text : String} {d : Draft A M} {error : LoadError}
    (hread : (tokenLines text).foldlM (Draft.readTokens V (readCondition V)) {} = .ok d)
    (hfinish : d.finish text = .error error) : Located V text error := by
  obtain ⟨hdated, hlines⟩ := Draft.dated_of_foldlM Draft.dated_start hread
  rw [Nat.zero_add] at hlines
  have hpasses : ∀ k cut, tokenLines cut = (tokenLines text).take k → V.PassesLines cut :=
    fun k cut hcut => passesLines_of_take hread hcut
  have hend := Draft.foundAtEnd_of_finish hdated hfinish
  rcases Draft.fault_of_finish hdated hfinish with
    ⟨name, hname, hfirst, hlast⟩ | ⟨name, hname, hfirst, hlast⟩
  · have hlength := hlast.trans hlines
    constructor
    · exact ⟨hfirst, Nat.le_of_eq hlength⟩
    · exact fun hline => absurd hend hline
    · exact fun hline => absurd hend hline
    · exact fun _ _ => ⟨hlength, fun k _ => hpasses k⟩
    · exact fun _ _ => hpasses
  · constructor
    · exact ⟨hfirst, hlines ▸ hlast⟩
    · exact fun hline => absurd hend hline
    · exact fun hline => absurd hend hline
    · exact fun other hother => nomatch hname.symm.trans hother
    · exact fun _ _ => hpasses

/-- Whatever the text and the vocabulary, a fault is reported where it is found. -/
theorem read_error_located {text : String} {error : LoadError}
    (h : (V.read text).outcome = .error error) : Located V text error := by
  rw [outcome_read] at h
  cases hread : (tokenLines text).foldlM (Draft.readTokens V (readCondition V)) {} with
  | error halt =>
    rw [hread] at h
    cases h
    exact located_of_stop hread
  | ok d =>
    rw [hread] at h
    exact located_of_finish hread h

open Engine in
/-- A bracket out of place is reported on its own line, an open block at the end, and a name that
is not opened where it is first referred to. -/
theorem signboard_locates_faults :
    let V := signboard.host.toVocabulary
    ((V.read "1 open -> shut\nhall [ open\n shut ] wide\n2 -> open").outcome =
        .error ⟨3, .misplacedBracket⟩ ∧
      (V.read "1 open -> shut\nhall [ open\n shut ] wide\n[").outcome =
        .error ⟨3, .misplacedBracket⟩ ∧
      V.PassesLines (String.ofList (Text.firstLines 2
        "1 open -> shut\nhall [ open\n shut ] wide\n2 -> open".toList))) ∧
    ((V.read "hall [ open\n\n%yard").outcome = .error ⟨3, .unclosedTag "hall"⟩ ∧
      V.PassesLines "hall [ open\n") ∧
    ((V.read "1 open -> shut\n0 %yard -> open\n0 %yard -> shut").outcome =
        .error ⟨2, .undefinedTag "yard"⟩ ∧
      V.PassesLines "1 open -> shut\n0 %yard -> open") := by
  intro V
  have hbracket : (V.read "1 open -> shut\nhall [ open\n shut ] wide\n2 -> open").outcome =
      .error ⟨3, .misplacedBracket⟩ := by
    rfl
  have hopen : (V.read "hall [ open\n\n%yard").outcome = .error ⟨3, .unclosedTag "hall"⟩ := by
    rfl
  have hname : (V.read "1 open -> shut\n0 %yard -> open\n0 %yard -> shut").outcome =
      .error ⟨2, .undefinedTag "yard"⟩ := by
    rfl
  have hlocated := read_error_located hbracket
  refine ⟨⟨hbracket, ?_, ?_⟩, ⟨hopen, ?_⟩, hname, ?_⟩
  · exact hlocated.settled id _ (by decide)
  · exact hlocated.earliest id _ tokenLines_firstLines
  · exact ((read_error_located hopen).unclosed "hall" rfl).2 1 (by decide) _ (by decide)
  · exact (read_error_located hname).undefined "yard" rfl 2 _ (by decide)

end Vocabulary

end PriorityRules
