import PageMend.Proofs.Markup.Reload

/-!
# Which pages are read

A page is read just when its tokens go on to its end, the attributes of its tags can be read, and
its tags are well nested (`exists_parse_iff`).

`Balanced` says what well nested means, without a stack: between an opening bracket and the closing
one of the same name stands a balanced word. `balanced_iff_nest` is the stack, which is how a page
is read; `Growth.exists_grow_iff` says that a growth keeps just this stack. The tags of a script or
style sheet that is read as raw text take no part in the nesting (`outsideRaw`), and neither do void
tags and tags that are their own end tag (`brackets_insert`).
-/

namespace PageMend.Markup

/-! ## Balanced words -/

/-- A tag that takes part in the nesting of elements. -/
inductive Bracket where
  | opening (name : List Char)
  | closing (name : List Char)
  deriving DecidableEq, Repr

/-- Brackets of which each closing one belongs to the innermost one that is open, and bears exactly
its name, and of which none is open at the end. -/
inductive Balanced : List Bracket → Prop
  | nil : Balanced []
  | pair {name : List Char} {inner rest : List Bracket} (inside : Balanced inner)
    (behind : Balanced rest) : Balanced (.opening name :: (inner ++ .closing name :: rest))

theorem Balanced.append {bs cs : List Bracket} (hb : Balanced bs) (hc : Balanced cs) :
    Balanced (bs ++ cs) := by
  induction hb with
  | nil => exact hc
  | @pair name inner rest inside _ _ ih =>
    rw [List.cons_append, List.append_assoc, List.cons_append]
    exact .pair inside ih

/-- The names that are open behind a bracket, innermost first, or `none` if the bracket closes
something else than the innermost of them. -/
def Bracket.step (names : List (List Char)) : Bracket → Option (List (List Char))
  | .opening name => some (name :: names)
  | .closing name =>
    match names with
    | [] => none
    | innermost :: names => if innermost = name then some names else none

theorem Bracket.step_closing_eq_some {names names' : List (List Char)} {name : List Char} :
    (Bracket.closing name).step names = some names' ↔ names = name :: names' := by
  simp only [Bracket.step]
  constructor
  · intro h
    split at h
    · cases h
    · split at h
      · rename_i hname
        cases h
        rw [hname]
      · cases h
  · rintro rfl
    exact if_pos rfl

/-- The names that are open behind some brackets. -/
def nest (names : List (List Char)) (bs : List Bracket) : Option (List (List Char)) :=
  bs.foldlM Bracket.step names

@[simp] theorem nest_nil (names : List (List Char)) : nest names [] = some names := rfl

theorem nest_cons (names : List (List Char)) (b : Bracket) (bs : List Bracket) :
    nest names (b :: bs) = (b.step names).bind (nest · bs) := rfl

@[simp] theorem nest_opening (names : List (List Char)) (name : List Char) (bs : List Bracket) :
    nest names (.opening name :: bs) = nest (name :: names) bs := rfl

@[simp] theorem nest_closing (names : List (List Char)) (name : List Char) (bs : List Bracket) :
    nest (name :: names) (.closing name :: bs) = nest names bs := by
  rw [nest_cons, Bracket.step_closing_eq_some.2 rfl, Option.bind_some]

theorem nest_append (names : List (List Char)) (bs cs : List Bracket) :
    nest names (bs ++ cs) = (nest names bs).bind (nest · cs) := by
  induction bs generalizing names with
  | nil => rfl
  | cons b bs ih =>
    rw [List.cons_append, nest_cons, nest_cons, Option.bind_assoc]
    exact Option.bind_congr fun names' _ => ih names'

/-- A balanced word leaves open what was open in front of it. -/
theorem Balanced.nest {bs : List Bracket} (h : Balanced bs) (names : List (List Char)) :
    nest names bs = some names := by
  induction h generalizing names with
  | nil => rfl
  | @pair name inner rest _ _ ihi ihr =>
    rw [nest_opening, nest_append, ihi, Option.bind_some, nest_closing, ihr]

/-- Brackets that close some names, innermost first, and are balanced in between and behind. -/
inductive Closes : List (List Char) → List Bracket → Prop
  | nil {bs : List Bracket} (h : Balanced bs) : Closes [] bs
  | cons {name : List Char} {names : List (List Char)} {inner rest : List Bracket}
    (inside : Balanced inner) (behind : Closes names rest) :
    Closes (name :: names) (inner ++ .closing name :: rest)

theorem Closes.append {names : List (List Char)} {bs cs : List Bracket} (hb : Balanced bs)
    (hc : Closes names cs) : Closes names (bs ++ cs) := by
  cases hc with
  | nil h => exact .nil (hb.append h)
  | cons inside behind =>
    rw [← List.append_assoc]
    exact .cons (hb.append inside) behind

theorem closes_of_nest {names : List (List Char)} {bs : List Bracket}
    (h : nest names bs = some []) : Closes names bs := by
  induction bs generalizing names with
  | nil =>
    cases h
    exact .nil .nil
  | cons b bs ih =>
    rw [nest_cons] at h
    obtain ⟨names', hstep, hrest⟩ := Option.bind_eq_some_iff.1 h
    have hcloses := ih hrest
    cases b with
    | opening name =>
      cases hstep
      -- the bracket and the one that closes it make a pair in front of the rest
      cases hcloses with
      | @cons _ _ inner rest inside behind =>
        have hpair : Balanced (.opening name :: (inner ++ [.closing name])) := .pair inside .nil
        have happ := Closes.append hpair behind
        rwa [List.cons_append, List.append_assoc] at happ
    | closing name =>
      obtain rfl := Bracket.step_closing_eq_some.1 hstep
      exact Closes.cons .nil hcloses

/-- A word is balanced just when a stack of names takes it and is empty at the end. -/
theorem balanced_iff_nest {bs : List Bracket} : Balanced bs ↔ nest [] bs = some [] := by
  constructor
  · intro h
    exact h.nest []
  · intro h
    cases closes_of_nest h with
    | nil h => exact h

instance (bs : List Bracket) : Decidable (Balanced bs) := decidable_of_iff' _ balanced_iff_nest

/-! ## The brackets of a page -/

/-- What a token does to the nesting. A void tag opens and closes nothing, in whatever case its name
is written, and neither does a tag that is its own end tag. -/
def Token.bracket? : Token → Option Bracket
  | .startTag name _ => if isVoidName (String.ofList name) then none else some (.opening name)
  | .endTag name => if isVoidName (String.ofList name) then none else some (.closing name)
  | _ => none

/-- The tokens outside scripts and style sheets. `raw` is the name of the one that is open: all up
to its end tag belongs to it. -/
def outsideRaw (raw : Option (List Char)) : List Token → List Token
  | [] => []
  | t :: ts =>
    match raw with
    | some name => outsideRaw (if t = .endTag name then none else some name) ts
    | none =>
      match t.rawTextName? with
      | some name => outsideRaw (some name) ts
      | none => t :: outsideRaw none ts

/-- The tags that open and close elements, in order, but for those of scripts and style sheets. -/
def brackets (ts : List Token) : List Bracket := (outsideRaw none ts).filterMap Token.bracket?

/-- Whether the attributes of a token can be read, if it is a tag that has them. -/
def Token.AttributesRead : Token → Prop
  | .startTag name attributes => ∃ read, readAttributes name attributes = .ok read
  | .emptyTag name attributes => ∃ read, readAttributes name attributes = .ok read
  | _ => True

theorem exists_ok_iff_isOk {ε α : Type} {x : Except ε α} :
    (∃ a, x = .ok a) ↔ x.toOption.isSome = true := by
  cases x with
  | error e => simp [Except.toOption]
  | ok a => simp [Except.toOption]

instance (t : Token) : Decidable t.AttributesRead :=
  match t with
  | .startTag _ _ | .emptyTag _ _ => decidable_of_iff' _ exists_ok_iff_isOk
  | .text _ | .endTag _ | .rawText _ | .comment _ | .cdata _ | .instruction _ | .doctype _ =>
    isTrue trivial

/-- The names that are open behind a token. -/
def Token.nest (t : Token) (names : List (List Char)) : Option (List (List Char)) :=
  t.bracket?.elim (some names) (·.step names)

theorem nest_filterMap_cons (names : List (List Char)) (t : Token) (ts : List Token) :
    nest names ((t :: ts).filterMap Token.bracket?) =
      (t.nest names).bind (nest · (ts.filterMap Token.bracket?)) := by
  rw [List.filterMap_cons, Token.nest]
  cases t.bracket? with
  | none => rfl
  | some b => exact nest_cons names b _

/-! ### Where void tags may stand -/

theorem bracket?_ne_none {t : Token} {name : List Char} (h : t.rawTextName? = some name) :
    t.bracket? ≠ none ∧ (Token.endTag name).bracket? ≠ none := by
  obtain ⟨attributes, rfl, hraw⟩ := exists_startTag_of_rawTextName? h
  have hvoid := isVoidName_of_isRawTextName hraw
  simp [Token.bracket?, hvoid]

/-- A token that is no bracket may stand anywhere: in front of it, behind it, or in a script. -/
theorem brackets_insert {t : Token} (h : t.bracket? = none) (ts us : List Token) :
    brackets (ts ++ t :: us) = brackets (ts ++ us) := by
  have hstart : t.rawTextName? = none := by
    cases hr : t.rawTextName? with
    | none => rfl
    | some name => exact absurd h (bracket?_ne_none hr).1
  -- a script that is open has a name that no void tag bears
  have hall : ∀ raw : Option (List Char), (∀ name ∈ raw, t ≠ .endTag name) →
      (outsideRaw raw (ts ++ t :: us)).filterMap Token.bracket? =
        (outsideRaw raw (ts ++ us)).filterMap Token.bracket? := by
    induction ts with
    | nil =>
      intro raw hraw
      cases raw with
      | none => simp [outsideRaw, hstart, h]
      | some name => simp [outsideRaw, hraw name rfl]
    | cons u ts ih =>
      intro raw hraw
      cases raw with
      | some name =>
        simp only [List.cons_append, outsideRaw]
        apply ih
        split
        · exact fun _ h => nomatch h
        · exact hraw
      | none =>
        simp only [List.cons_append, outsideRaw]
        cases hu : u.rawTextName? with
        | some name =>
          apply ih
          rintro _ ⟨⟩ rfl
          exact (bracket?_ne_none hu).2 h
        | none =>
          simp only [List.filterMap_cons]
          rw [ih none fun _ h => nomatch h]
  exact hall none fun _ h => nomatch h

/-! ## The brackets decide -/

namespace Growth

/-- The names of the open elements, innermost first. -/
def names (g : Growth) : List (List Char) := g.opened.map Prod.snd

theorem exists_elementOf_iff {name attributes : List Char} {selfClosing : Bool} :
    (∃ e, elementOf name attributes selfClosing = .ok e) ↔
      ∃ read, readAttributes name attributes = .ok read := by
  unfold elementOf
  cases readAttributes name attributes with
  | error fault =>
    constructor
    · rintro ⟨e, he⟩
      cases he
    · rintro ⟨read, hread⟩
      cases hread
  | ok read => exact ⟨fun _ => ⟨read, rfl⟩, fun _ => ⟨_, rfl⟩⟩

/-- A token that puts a node has nothing to do with the names that are open. -/
theorem Makes.nest {t : Token} {k : Kind} (h : Makes t k) (names : List (List Char)) :
    t.AttributesRead ∧ t.nest names = some names := by
  cases h with
  | voidEnd hv => exact ⟨trivial, by rw [Token.nest, Token.bracket?, if_pos hv]; rfl⟩
  | emptyTag he => exact ⟨exists_elementOf_iff.1 ⟨_, he⟩, rfl⟩
  | voidTag he hv =>
    rw [Element.isVoid, (elementOf_eq_ok he).1] at hv
    exact ⟨exists_elementOf_iff.1 ⟨_, he⟩, by rw [Token.nest, Token.bracket?, if_pos hv]; rfl⟩
  | _ => exact ⟨trivial, rfl⟩

/-- What a token does to the names that are open. -/
theorem nest_of_addToken {g g' : Growth} {t : Token} (h : g.addToken t = .ok g') :
    t.AttributesRead ∧ t.nest g.names = some g'.names := by
  rcases addToken_cases h with ⟨k, hk, rfl⟩ | ⟨name, attributes, e, rfl, he, hv, rfl⟩ |
    ⟨name, id, opened, rfl, hv, ho, rfl⟩
  · exact hk.nest g.names
  · rw [Element.isVoid, (elementOf_eq_ok he).1] at hv
    refine ⟨exists_elementOf_iff.1 ⟨_, he⟩, ?_⟩
    rw [Token.nest, Token.bracket?, hv]
    rfl
  · refine ⟨trivial, ?_⟩
    rw [Token.nest, Token.bracket?, hv, names, ho]
    exact Bracket.step_closing_eq_some.2 rfl

theorem exists_addToken {g : Growth} {t : Token} {names : List (List Char)}
    (hread : t.AttributesRead) (hnest : t.nest g.names = some names) :
    ∃ g', g.addToken t = .ok g' := by
  cases t with
  | startTag name attributes =>
    obtain ⟨e, he⟩ := exists_elementOf_iff.2 hread
    cases hv : e.isVoid with
    | true => exact ⟨_, (Makes.voidTag he hv).addToken g⟩
    | false => exact ⟨_, addToken_startTag he hv g⟩
  | emptyTag name attributes =>
    obtain ⟨e, he⟩ := exists_elementOf_iff.2 hread
    exact ⟨_, (Makes.emptyTag he).addToken g⟩
  | endTag name =>
    cases hv : isVoidName (String.ofList name) with
    | true => exact ⟨_, (Makes.voidEnd hv).addToken g⟩
    | false =>
      rw [Token.nest, Token.bracket?, hv] at hnest
      obtain ⟨⟨id, opened⟩, tail, ho, hname, -⟩ :=
        List.map_eq_cons_iff.1 (Bracket.step_closing_eq_some.1 hnest)
      cases hname
      exact ⟨_, addToken_endTag ho hv⟩
  | _ => exact ⟨_, rfl⟩

/-- A token can be added just when its attributes can be read and it fits the names that are
open. -/
theorem exists_addToken_iff {g : Growth} {t : Token} {names : List (List Char)} :
    (∃ g', g.addToken t = .ok g' ∧ g'.names = names) ↔
      t.AttributesRead ∧ t.nest g.names = some names := by
  constructor
  · rintro ⟨g', hg', rfl⟩
    exact nest_of_addToken hg'
  · rintro ⟨hread, hnest⟩
    obtain ⟨g', hg'⟩ := exists_addToken hread hnest
    have hnames := (nest_of_addToken hg').2
    rw [hnest] at hnames
    exact ⟨g', hg', (Option.some.inj hnames).symm⟩

/-- Tokens can be added just when their attributes can be read and their brackets fit the names that
are open. -/
theorem exists_grow_iff {g : Growth} {ts : List Token} {names : List (List Char)} :
    (∃ g', g.grow ts = .ok g' ∧ g'.names = names) ↔
      (∀ t ∈ ts, t.AttributesRead) ∧
        nest g.names (ts.filterMap Token.bracket?) = some names := by
  induction ts generalizing g with
  | nil => simp
  | cons t ts ih =>
    rw [List.forall_mem_cons, nest_filterMap_cons, Option.bind_eq_some_iff]
    constructor
    · rintro ⟨g', hg', hnames⟩
      obtain ⟨m, hm, hrest⟩ := grow_cons_ok.1 hg'
      obtain ⟨ht, hstep⟩ := exists_addToken_iff.1 ⟨m, hm, rfl⟩
      obtain ⟨hts, hnest⟩ := ih.1 ⟨g', hrest, hnames⟩
      exact ⟨⟨ht, hts⟩, m.names, hstep, hnest⟩
    · rintro ⟨⟨ht, hts⟩, between, hstep, hnest⟩
      obtain ⟨m, hm, rfl⟩ := exists_addToken_iff.2 ⟨ht, hstep⟩
      obtain ⟨g', hrest, hnames⟩ := ih.2 ⟨hts, hnest⟩
      exact ⟨g', grow_cons_ok.2 ⟨m, hm, hrest⟩, hnames⟩

end Growth

theorem outsideRaw_rawTokens (name body : List Char) (ts : List Token) :
    outsideRaw (some name) (rawTokens body ++ .endTag name :: ts) = outsideRaw none ts := by
  unfold rawTokens rawLexemes
  split <;> simp [outsideRaw]

/-- The tags of a script or style sheet close each other, so the stack need not see them. -/
theorem nest_brackets {ts : List Token} (h : Legible ts) (names : List (List Char)) :
    nest names (ts.filterMap Token.bracket?) = nest names (brackets ts) := by
  induction h generalizing names with
  | nil => rfl
  | @cons t ts _ plain _ _ ih =>
    have houtside : brackets (t :: ts) = (t :: outsideRaw none ts).filterMap Token.bracket? := by
      rw [brackets, outsideRaw, plain]
    rw [houtside, nest_filterMap_cons, nest_filterMap_cons]
    exact Option.bind_congr fun names' _ => ih names'
  | @raw name attributes body ts _ isRaw _ _ _ ih =>
    have hvoid := isVoidName_of_isRawTextName isRaw
    have hstart : (Token.startTag name attributes).rawTextName? = some name := if_pos isRaw
    have houtside : brackets (.startTag name attributes :: (rawTokens body ++ .endTag name :: ts)) =
        brackets ts := by
      rw [brackets, outsideRaw, hstart]
      exact congrArg _ (outsideRaw_rawTokens name body ts)
    have hbody : (rawTokens body).filterMap Token.bracket? = [] := by
      unfold rawTokens rawLexemes
      split <;> rfl
    rw [houtside, ← ih, List.filterMap_cons, List.filterMap_append, hbody, List.nil_append,
      List.filterMap_cons]
    simp [Token.bracket?, hvoid]

/-- A page is read just when its tokens go on to its end, in scripts and style sheets too, the
attributes of its tags can be read, and the tags that open and close elements are well nested.
Tokens that open and close nothing may stand anywhere. -/
theorem exists_parse_iff (page : String) :
    ((∃ t, parse page = .ok t) ↔
      (∃ lost, (scan page).ending = .finished lost) ∧
        (∀ t ∈ (scan page).tokens, t.AttributesRead) ∧
          Balanced (brackets (scan page).tokens)) ∧
    ∀ t : Token, t.bracket? = none → ∀ ts us, brackets (ts ++ t :: us) = brackets (ts ++ us) := by
  refine ⟨?_, fun t ht => brackets_insert ht⟩
  have hgrow : (∃ g, Growth.start.grow (scan page).tokens = .ok g ∧ g.names = []) ↔ _ :=
    Growth.exists_grow_iff
  constructor
  · rintro ⟨t, ht⟩
    obtain ⟨lost, g, he, hg, ho, -⟩ := parse_eq_ok.1 ht
    have hnames : g.names = [] := by rw [Growth.names, ho, List.map_nil]
    obtain ⟨hread, hnest⟩ := hgrow.1 ⟨g, hg, hnames⟩
    have hlegible : Legible (scan page).tokens := legible_scanFrom he
    rw [nest_brackets hlegible] at hnest
    exact ⟨⟨lost, he⟩, hread, balanced_iff_nest.2 hnest⟩
  · rintro ⟨⟨lost, he⟩, hread, hbalanced⟩
    have hnest := balanced_iff_nest.1 hbalanced
    have hlegible : Legible (scan page).tokens := legible_scanFrom he
    rw [← nest_brackets hlegible] at hnest
    obtain ⟨g, hg, hnames⟩ := hgrow.2 ⟨hread, hnest⟩
    exact ⟨g.tree, parse_eq_ok.2 ⟨lost, g, he, hg, List.map_eq_nil_iff.1 hnames, rfl⟩⟩

/-- Void tags of all kinds, and a tag in a script, take no part. -/
example :
    let ts := (scan "<P><BR></br><hr/><script></p></script></P>").tokens
    brackets ts = [.opening ['P'], .closing ['P']] ∧ Balanced (brackets ts) ∧
      ∀ t ∈ ts, t.AttributesRead := by
  decide +kernel

end PageMend.Markup
