import Mathlib.Data.List.Forall2
import PageMend.Yaml.Document

/-!
# Tokens become nodes

`Reads place signs P` says of some signs that tokens with these signs are read as one node with the
property `P`, in whatever frame waits for content at that place. Scalars, mappings and sequences are
read so, if what they consist of is. Which frame the reader is in when it goes on matters only for
what the next token leaves of it: a sequence that is not indented has no token at its end, and is
completed by the one that follows.
-/

namespace PageMend.Yaml

/-! ## Frames -/

/-- A frame that waits for content at a place. -/
inductive Awaits : Frame → ContentPlace → Prop
  | item (indented : Bool) (p : Properties) (start : Mark) (items : List Node) (behind : Mark) :
    Awaits (.blockItems indented p start items (some behind)) .block
  | value (p : Properties) (start : Mark) (entries : List (Node × Node)) (key : Node)
    (behind : Mark) : Awaits (.blockEntries p start entries (.value key behind)) .blockEntry

/-- The signs with which content begins at a place. -/
def Sign.isContent (place : ContentPlace) : Sign → Bool
  | .scalar _ _ | .flowSequence | .blockMapping => true
  | .dash => place = .blockEntry
  | _ => false

/-- The reader in other frames. -/
def Assembly.within (a : Assembly) (frames : List Frame) : Assembly := { a with frames }

/-- No document is complete in these frames. -/
def IsOpen (frames : List Frame) : Prop :=
  ∀ explicit root outer, frames ≠ .document explicit (some root) :: outer

variable {fault : Option Fault} {a b : Assembly} {t : Token} {ts : List Token}
  {f : Frame} {frames outer : List Frame} {place : ContentPlace} {p : Properties} {start : Mark}
  {entries : List (Node × Node)} {items : List Node} {n : Node}

/-! ## One token -/

theorem IsOpen.root?_eq (h : IsOpen a.frames) : a.root? = none := by
  unfold Assembly.root?
  split
  · rename_i explicit root outer he
    cases root with
    | none => rfl
    | some root => exact absurd he (h explicit root outer)
  · rfl

theorem read_cons (hyield : yieldTo t none frames = outer) (hopen : IsOpen outer)
    (htake : (a.within outer).take t = .ok b) (hnext : IsOpen b.frames) :
    Document.read fault (a.within frames) (t :: ts) = Document.read fault b ts := by
  have hroot : (a.within outer).root? = none := IsOpen.root?_eq hopen
  rw [Document.read]
  simp only [Assembly.within, hyield] at hroot htake ⊢
  simp only [hroot, htake, hnext.root?_eq]

/-- The token with which a document is complete. -/
theorem read_complete {root : Node} (hyield : yieldTo t none frames = outer) (hopen : IsOpen outer)
    (htake : (a.within outer).take t = .ok b) (hroot : b.root? = some root) :
    Document.read fault (a.within frames) (t :: ts) = Document.ended root ts fault := by
  have hnone : (a.within outer).root? = none := IsOpen.root?_eq hopen
  rw [Document.read]
  simp only [Assembly.within, hyield] at hnone htake ⊢
  simp only [hnone, htake, hroot]

/-- What the next token leaves of the frames is all that matters. -/
theorem read_congr {frames' : List Frame} (h : yieldTo t none frames = yieldTo t none frames') :
    Document.read fault (a.within frames) (t :: ts) =
      Document.read fault (a.within frames') (t :: ts) := by
  rw [Document.read, Document.read]
  simp only [Assembly.within, h]

/-! ## Content -/

theorem Awaits.yieldTo (h : Awaits f place) (ht : t.sign.isContent place = true) :
    yieldTo t none (f :: outer) = f :: outer := by
  cases h with
  | item =>
    have hends : ∀ indented, t.sign.endsItemContent indented = false := by
      intro indented
      cases hs : t.sign <;> simp [hs, Sign.isContent] at ht <;> rfl
    simp [Yaml.yieldTo, Frame.settle, Frame.finished?, hends]
  | value =>
    have hends : t.sign.endsEntryContent = false := by
      cases hs : t.sign <;> simp [hs, Sign.isContent] at ht <;> rfl
    simp [Yaml.yieldTo, Frame.settle, Frame.finished?, hends]

theorem Awaits.take (h : Awaits f place) :
    (a.within (f :: outer)).take t = (a.within (f :: outer)).takeNode t place := by
  cases h <;> rfl

/-- Content without properties. -/
theorem takeNode_eq (ht : t.sign.isContent place = true) :
    a.takeNode t place = a.takeContent t place { mark := t.mark } := by
  cases hs : t.sign <;> simp [hs, Sign.isContent] at ht <;>
    simp [Assembly.takeNode, Assembly.takeBehind, Assembly.takeProperty?, hs]

theorem Awaits.isOpen_plug (h : Awaits f place) (n : Node) : IsOpen (f.plug n :: outer) := by
  intro explicit root outer' he
  cases h <;> exact nomatch (List.cons.inj he).1

/-- Content is taken where it is awaited. -/
theorem read_content (h : Awaits f place) (hcontent : t.sign.isContent place = true)
    (htake : (a.within (f :: outer)).takeContent t place { mark := t.mark } = .ok b)
    (hopen : IsOpen b.frames) :
    Document.read fault (a.within (f :: outer)) (t :: ts) = Document.read fault b ts := by
  have hopen' : IsOpen (f :: outer) := by
    intro explicit root outer' he
    cases h <;> exact nomatch (List.cons.inj he).1
  refine read_cons (h.yieldTo hcontent) hopen' ?_ hopen
  rw [h.take, takeNode_eq hcontent, htake]

/-! ## Nodes -/

/-- Whether a token shows that a node at a place is complete. An entry of a mapping may hold a
sequence that is not indented, to which a dash would still belong. -/
def Completes (place : ContentPlace) (t : Token) : Prop :=
  place = .blockEntry → t.sign = .key ∨ t.sign = .blockEnd

/-- Tokens with these signs are read as a node with a property. -/
def Reads (place : ContentPlace) (signs : List Sign) (P : Node → Prop) : Prop :=
  ∀ ts : List Token, ts.map Token.sign = signs → ∃ n, P n ∧
    ∀ (fault : Option Fault) (a : Assembly) (f : Frame) (outer : List Frame) (t : Token)
      (rest : List Token), Awaits f place → Completes place t →
        Document.read fault (a.within (f :: outer)) (ts ++ t :: rest) =
          Document.read fault (a.within (f.plug n :: outer)) (t :: rest)

theorem Reads.mono {signs : List Sign} {P Q : Node → Prop} (h : Reads place signs P)
    (himp : ∀ n, P n → Q n) : Reads place signs Q := by
  intro ts hts
  obtain ⟨n, hn, hread⟩ := h ts hts
  exact ⟨n, himp n hn, hread⟩

/-- A scalar is complete at once. -/
theorem reads_scalar (place : ContentPlace) (style : Style) (text : String) :
    Reads place [.scalar style text] fun n => ∃ p : Properties, n = .scalar p style text := by
  intro ts hts
  obtain ⟨t, rfl, ht⟩ := List.map_eq_singleton_iff.1 hts
  refine ⟨.scalar { mark := t.mark } style text, ⟨_, rfl⟩, ?_⟩
  intro fault a f outer next rest h _
  refine read_content h (by rw [ht]; rfl) ?_ (h.isOpen_plug _)
  rw [Assembly.takeContent, ht]
  rfl

/-- An empty list in brackets. -/
theorem reads_emptyList (place : ContentPlace) :
    Reads place [.flowSequence, .flowSequenceEnd] fun n =>
      ∃ p : Properties, n = .sequence p [] := by
  intro ts hts
  obtain ⟨t, ts, rfl, ht, hts⟩ := List.map_eq_cons_iff.1 hts
  obtain ⟨e, rfl, he⟩ := List.map_eq_singleton_iff.1 hts
  refine ⟨.sequence { mark := t.mark } [], ⟨_, rfl⟩, ?_⟩
  intro fault a f outer next rest h _
  have hopened : Document.read fault (a.within (f :: outer)) (t :: e :: next :: rest) =
      Document.read fault (a.within (.flowItems { mark := t.mark } t.mark [] true :: f :: outer))
        (e :: next :: rest) := by
    refine read_content h (by rw [ht]; rfl) ?_ (by rintro _ _ _ ⟨⟩)
    rw [Assembly.takeContent, ht]
    rfl
  have hclosed : Document.read fault
      (a.within (.flowItems { mark := t.mark } t.mark [] true :: f :: outer)) (e :: next :: rest) =
      Document.read fault (a.within (f.plug (.sequence { mark := t.mark } []) :: outer))
        (next :: rest) := by
    refine read_cons rfl (by rintro _ _ _ ⟨⟩) ?_ (h.isOpen_plug _)
    simp only [Assembly.take, Assembly.within, Assembly.takeItem, he]
    rfl
  exact hopened.trans hclosed

/-! ### Sequences -/

/-- The frame of a sequence that is not indented, between two items. -/
def itemsFrame (p : Properties) (start : Mark) (items : List Node) : Frame :=
  .blockItems false p start items none

/-- Signs of nodes, and what these nodes are like. -/
abbrev Spelling := List Sign × (Node → Prop)

/-- A dash begins an item. -/
theorem read_dash {d : Token} (hd : d.sign = .dash) :
    Document.read fault (a.within (itemsFrame p start items :: outer)) (d :: ts) =
      Document.read fault
        (a.within (.blockItems false p start items (some d.mark.right) :: outer)) ts := by
  have hyield : yieldTo d none (itemsFrame p start items :: outer) =
      itemsFrame p start items :: outer := by
    simp [yieldTo, itemsFrame, Frame.settle, Frame.finished?, hd]
  refine read_cons hyield (by rintro _ _ _ ⟨⟩) ?_ (by rintro _ _ _ ⟨⟩)
  simp only [Assembly.take, Assembly.within, itemsFrame, Assembly.takeDash, hd]

/-- The items of a sequence are read one after the other. -/
theorem read_items {spellings : List Spelling}
    (h : ∀ s ∈ spellings, Reads .block s.1 s.2)
    (hts : ts.map Token.sign = spellings.flatMap fun s => .dash :: s.1) :
    ∃ nodes, List.Forall₂ (fun s n => s.2 n) spellings nodes ∧
      ∀ (fault : Option Fault) (a : Assembly) (p : Properties) (start : Mark) (items : List Node)
        (outer : List Frame) (t : Token) (rest : List Token),
        Document.read fault (a.within (itemsFrame p start items :: outer)) (ts ++ t :: rest) =
          Document.read fault (a.within (itemsFrame p start (items ++ nodes) :: outer))
            (t :: rest) := by
  induction spellings generalizing ts with
  | nil =>
    obtain rfl := List.map_eq_nil_iff.1 hts
    exact ⟨[], .nil, fun _ _ _ _ items _ _ _ => by rw [List.append_nil]; rfl⟩
  | cons s spellings ih =>
    obtain ⟨hs, hspellings⟩ := List.forall_mem_cons.1 h
    rw [List.flatMap_cons, List.cons_append] at hts
    obtain ⟨d, ts, rfl, hd, hts⟩ := List.map_eq_cons_iff.1 hts
    obtain ⟨ts₁, ts₂, rfl, hts₁, hts₂⟩ := List.map_eq_append_iff.1 hts
    obtain ⟨n, hn, hread⟩ := hs ts₁ hts₁
    obtain ⟨nodes, hnodes, hreads⟩ := ih hspellings hts₂
    refine ⟨n :: nodes, .cons hn hnodes, ?_⟩
    intro fault a p start items outer t rest
    obtain ⟨next, rest', hnext⟩ : ∃ next rest', ts₂ ++ t :: rest = next :: rest' := by
      cases ts₂ <;> exact ⟨_, _, rfl⟩
    have hitem := hread fault a _ outer next rest' (.item false p start items d.mark.right)
      (fun h => nomatch h)
    rw [List.cons_append, read_dash hd, List.append_assoc, hnext, hitem, ← hnext]
    refine (hreads fault a p start (items ++ [n]) outer t rest).trans ?_
    rw [List.append_assoc, List.singleton_append]

/-- A sequence that is not indented, as the value of a key. -/
theorem reads_sequence {spellings : List Spelling} (hne : spellings ≠ [])
    (h : ∀ s ∈ spellings, Reads .block s.1 s.2) :
    Reads .blockEntry (spellings.flatMap fun s => .dash :: s.1) fun n =>
      ∃ (p : Properties) (nodes : List Node), n = .sequence p nodes ∧
        List.Forall₂ (fun s n => s.2 n) spellings nodes := by
  intro ts hts
  obtain ⟨nodes, hnodes, hreads⟩ := read_items h hts
  obtain ⟨s, spellings, rfl⟩ := List.exists_cons_of_ne_nil hne
  rw [List.flatMap_cons, List.cons_append] at hts
  obtain ⟨d, ts, rfl, hd, -⟩ := List.map_eq_cons_iff.1 hts
  refine ⟨.sequence { mark := d.mark } nodes, ⟨_, _, rfl, hnodes⟩, ?_⟩
  intro fault a f outer t rest hf ht
  -- the first dash opens the sequence, and begins an item like any other
  have hopened : Document.read fault (a.within (f :: outer)) (d :: (ts ++ t :: rest)) =
      Document.read fault (a.within (itemsFrame { mark := d.mark } d.mark [] :: f :: outer))
        (d :: (ts ++ t :: rest)) := by
    rw [read_dash hd]
    refine read_content hf (by rw [hd]; rfl) ?_ (by rintro _ _ _ ⟨⟩)
    rw [Assembly.takeContent, hd]
    rfl
  rw [List.cons_append, hopened]
  refine (hreads fault a { mark := d.mark } d.mark [] (f :: outer) t rest).trans ?_
  -- the next token completes the sequence
  refine read_congr ?_
  have hne : t.sign ≠ .dash := by
    rcases ht rfl with ht | ht <;> rw [ht] <;> exact nofun
  rw [yieldTo]
  simp only [itemsFrame, Frame.settle, Frame.finished?, hne, if_false, List.nil_append]
  rw [yieldTo, yieldTo]

/-! ### Mappings -/

/-- A key, and what its value is like. -/
structure Entry where
  name : String
  value : Spelling

/-- The signs of an entry. -/
def Entry.signs (e : Entry) : List Sign :=
  .key :: .scalar .plain e.name :: .colon :: e.value.1

/-- A key and a value that are as an entry tells. -/
def Entry.Fits (e : Entry) (node : Node × Node) : Prop :=
  (∃ p : Properties, node.1 = .scalar p .plain e.name) ∧ e.value.2 node.2

/-- The frame of a mapping, between two entries. -/
def entriesFrame (p : Properties) (start : Mark) (entries : List (Node × Node)) : Frame :=
  .blockEntries p start entries .key

/-- No token is refused between two entries. -/
theorem yieldTo_entriesFrame :
    yieldTo t none (entriesFrame p start entries :: outer) =
      entriesFrame p start entries :: outer := rfl

/-- A key and its colon. -/
theorem read_key {k s c : Token} {name : String} (hk : k.sign = .key)
    (hs : s.sign = .scalar .plain name) (hc : c.sign = .colon) :
    Document.read fault (a.within (entriesFrame p start entries :: outer)) (k :: s :: c :: ts) =
      Document.read fault (a.within (.blockEntries p start entries
        (.value (.scalar { mark := s.mark } .plain name) c.mark.right) :: outer)) ts := by
  have hkey : ∀ ts,
      Document.read fault (a.within (entriesFrame p start entries :: outer)) (k :: ts) =
        Document.read fault (a.within (.blockEntries p start entries (.keyContent k.mark.right) ::
          outer)) ts := by
    intro ts
    refine read_cons yieldTo_entriesFrame (by rintro _ _ _ ⟨⟩) ?_ (by rintro _ _ _ ⟨⟩)
    simp only [Assembly.take, Assembly.within, entriesFrame, Assembly.takeEntry, hk]
  have hname : ∀ ts, Document.read fault (a.within (.blockEntries p start entries
      (.keyContent k.mark.right) :: outer)) (s :: ts) =
      Document.read fault (a.within (.blockEntries p start entries
        (.colon (.scalar { mark := s.mark } .plain name)) :: outer)) ts := by
    intro ts
    have hyield : yieldTo s none (.blockEntries p start entries (.keyContent k.mark.right) ::
        outer) = .blockEntries p start entries (.keyContent k.mark.right) :: outer := by
      simp [yieldTo, Frame.settle, Frame.finished?, hs, Sign.endsEntryContent]
    refine read_cons hyield (by rintro _ _ _ ⟨⟩) ?_ (by rintro _ _ _ ⟨⟩)
    simp only [Assembly.take, Assembly.within, Assembly.takeEntry]
    rw [takeNode_eq (by rw [hs]; rfl), Assembly.takeContent, hs]
    rfl
  have hcolon : ∀ n, Document.read fault (a.within (.blockEntries p start entries (.colon n) ::
      outer)) (c :: ts) =
      Document.read fault (a.within (.blockEntries p start entries (.value n c.mark.right) ::
        outer)) ts := by
    intro n
    have hyield : yieldTo c none (.blockEntries p start entries (.colon n) :: outer) =
        .blockEntries p start entries (.colon n) :: outer := by
      simp [yieldTo, Frame.settle, Frame.finished?, hc]
    exact read_cons hyield (by rintro _ _ _ ⟨⟩) rfl (by rintro _ _ _ ⟨⟩)
  exact (hkey _).trans ((hname _).trans (hcolon _))

/-- The entries of a mapping are read one after the other. -/
theorem read_entries {es : List Entry} (h : ∀ e ∈ es, Reads .blockEntry e.value.1 e.value.2)
    (hts : ts.map Token.sign = es.flatMap Entry.signs) :
    ∃ nodes, List.Forall₂ Entry.Fits es nodes ∧
      ∀ (fault : Option Fault) (a : Assembly) (p : Properties) (start : Mark)
        (entries : List (Node × Node)) (outer : List Frame) (t : Token) (rest : List Token),
        t.sign = .blockEnd →
        Document.read fault (a.within (entriesFrame p start entries :: outer)) (ts ++ t :: rest) =
          Document.read fault (a.within (entriesFrame p start (entries ++ nodes) :: outer))
            (t :: rest) := by
  induction es generalizing ts with
  | nil =>
    obtain rfl := List.map_eq_nil_iff.1 hts
    exact ⟨[], .nil, fun _ _ _ _ entries _ _ _ _ => by rw [List.append_nil]; rfl⟩
  | cons e es ih =>
    obtain ⟨he, hes⟩ := List.forall_mem_cons.1 h
    rw [List.flatMap_cons, Entry.signs, List.cons_append, List.cons_append, List.cons_append] at hts
    obtain ⟨k, ts, rfl, hk, hts⟩ := List.map_eq_cons_iff.1 hts
    obtain ⟨s, ts, rfl, hs, hts⟩ := List.map_eq_cons_iff.1 hts
    obtain ⟨c, ts, rfl, hc, hts⟩ := List.map_eq_cons_iff.1 hts
    obtain ⟨ts₁, ts₂, rfl, hts₁, hts₂⟩ := List.map_eq_append_iff.1 hts
    obtain ⟨n, hn, hread⟩ := he ts₁ hts₁
    obtain ⟨nodes, hnodes, hreads⟩ := ih hes hts₂
    refine ⟨(.scalar { mark := s.mark } .plain e.name, n) :: nodes, .cons ⟨⟨_, rfl⟩, hn⟩ hnodes, ?_⟩
    intro fault a p start entries outer t rest ht
    obtain ⟨next, rest', hnext, hsign⟩ : ∃ next rest', ts₂ ++ t :: rest = next :: rest' ∧
        (next.sign = .key ∨ next.sign = .blockEnd) := by
      cases es with
      | nil =>
        obtain rfl := List.map_eq_nil_iff.1 hts₂
        exact ⟨t, rest, rfl, .inr ht⟩
      | cons e es =>
        obtain ⟨k, ts, rfl, hk, -⟩ := List.map_eq_cons_iff.1 hts₂
        exact ⟨k, _, rfl, .inl hk⟩
    have hvalue := hread fault a _ outer next rest' (.value p start entries
      (.scalar { mark := s.mark } .plain e.name) c.mark.right) (fun _ => hsign)
    rw [List.cons_append, List.cons_append, List.cons_append, read_key hk hs hc, List.append_assoc,
      hnext, hvalue, ← hnext]
    refine (hreads fault a p start _ outer t rest ht).trans ?_
    rw [List.append_assoc, List.singleton_append]

/-- A mapping is complete at its end. -/
theorem reads_mapping (place : ContentPlace) {es : List Entry} (hplace : place ≠ .flow)
    (h : ∀ e ∈ es, Reads .blockEntry e.value.1 e.value.2) :
    Reads place (.blockMapping :: es.flatMap Entry.signs ++ [.blockEnd]) fun n =>
      ∃ (p : Properties) (nodes : List (Node × Node)), n = .mapping p nodes ∧
        List.Forall₂ Entry.Fits es nodes := by
  intro ts hts
  rw [List.cons_append] at hts
  obtain ⟨b, ts, rfl, hb, hts⟩ := List.map_eq_cons_iff.1 hts
  obtain ⟨ts, last, rfl, hentries, hend⟩ := List.map_eq_append_iff.1 hts
  obtain ⟨e, rfl, he⟩ := List.map_eq_singleton_iff.1 hend
  obtain ⟨nodes, hnodes, hreads⟩ := read_entries h hentries
  refine ⟨.mapping { mark := b.mark } nodes, ⟨_, _, rfl, hnodes⟩, ?_⟩
  intro fault a f outer t rest hf _
  have hopened : ∀ ts, Document.read fault (a.within (f :: outer)) (b :: ts) =
      Document.read fault (a.within (entriesFrame { mark := b.mark } b.mark [] :: f :: outer))
        ts := by
    intro ts
    refine read_content hf (by rw [hb]; rfl) ?_ (by rintro _ _ _ ⟨⟩)
    rw [Assembly.takeContent, hb]
    simp only [hplace, if_false]
    rfl
  have hclosed : Document.read fault (a.within (entriesFrame { mark := b.mark } b.mark nodes ::
      f :: outer)) (e :: t :: rest) =
      Document.read fault (a.within (f.plug (.mapping { mark := b.mark } nodes) :: outer))
        (t :: rest) := by
    refine read_cons yieldTo_entriesFrame (by rintro _ _ _ ⟨⟩) ?_ (hf.isOpen_plug _)
    simp only [Assembly.take, Assembly.within, entriesFrame, Assembly.takeEntry, he]
    rfl
  rw [List.cons_append, hopened, List.append_assoc]
  exact (hreads fault a _ _ [] _ e (t :: rest) he).trans hclosed

/-! ## Whole documents -/

/-- The tokens of a mapping and of the end are read as one document, which nothing follows. -/
theorem ofTokens_mapping {es : List Entry} (h : ∀ e ∈ es, Reads .blockEntry e.value.1 e.value.2)
    {all : Lexing.Tokens} (hfault : all.fault = none)
    (hsigns : all.tokens.map Token.sign =
      .blockMapping :: es.flatMap Entry.signs ++ [.blockEnd, .streamEnd]) :
    ∃ (p : Properties) (nodes : List (Node × Node)), List.Forall₂ Entry.Fits es nodes ∧
      Document.ofTokens all = { root := some (.mapping p nodes) } := by
  obtain ⟨tokens, fault⟩ := all
  obtain rfl : fault = none := hfault
  rw [List.cons_append] at hsigns
  obtain ⟨b, ts, rfl, hb, hts⟩ := List.map_eq_cons_iff.1 hsigns
  obtain ⟨ts, last, rfl, hentries, hend⟩ := List.map_eq_append_iff.1 hts
  obtain ⟨e, last, rfl, he, hlast⟩ := List.map_eq_cons_iff.1 hend
  obtain ⟨z, rfl, hz⟩ := List.map_eq_singleton_iff.1 hlast
  obtain ⟨nodes, hnodes, hreads⟩ := read_entries h hentries
  refine ⟨{ mark := b.mark }, nodes, hnodes, ?_⟩
  let a : Assembly := { frames := [.document false none], handles := Document.standardHandles }
  have hopened : ∀ ts, Document.read none a (b :: ts) =
      Document.read none (a.within [entriesFrame { mark := b.mark } b.mark [],
        .document false none]) ts := by
    intro ts
    have hroot : yieldTo b none [.document false none] = [.document false none] := rfl
    have htake : (a.within [.document false none]).take b = .ok (a.within
        [entriesFrame { mark := b.mark } b.mark [], .document false none]) := by
      have hcontent : b.sign.isContent .block = true := by rw [hb]; rfl
      have hnode : (a.within [.document false none]).take b =
          (a.within [.document false none]).takeNode b .block := rfl
      rw [hnode, takeNode_eq hcontent, Assembly.takeContent, hb]
      rfl
    exact read_cons hroot (by rintro _ _ _ ⟨⟩) htake (by rintro _ _ _ ⟨⟩)
  have hclosed : Document.read none (a.within [entriesFrame { mark := b.mark } b.mark nodes,
      .document false none]) [e, z] = { root := some (.mapping { mark := b.mark } nodes) } := by
    have htake : (a.within [entriesFrame { mark := b.mark } b.mark nodes,
        .document false none]).take e =
        .ok (a.within [.document false (some (.mapping { mark := b.mark } nodes))]) := by
      simp only [Assembly.take, Assembly.within, entriesFrame, Assembly.takeEntry, he]
      rfl
    rw [read_complete yieldTo_entriesFrame (by rintro _ _ _ ⟨⟩) htake rfl]
    simp [Document.ended, hz]
  have hstart : Document.ofTokens ⟨b :: (ts ++ [e, z]), none⟩ =
      Document.read none a (b :: (ts ++ [e, z])) := by
    simp only [Document.ofTokens, hb]
    rfl
  rw [hstart, hopened]
  exact (hreads none a _ _ [] [.document false none] e [z] he).trans hclosed

end PageMend.Yaml
