import PageMend.Proofs.Markup.Around
import PageMend.Proofs.Rule.Title

/-!
# Giving a page another title

Setting the title replaces what the title element holds by one text. The element stays the first
title of the page, as nothing in front of it is touched (`titleNode_setTitle`), and it is then
written with both its tags around the text, even if it was its own end tag
(`Tree.write_setText`). Around it the page is written as before, whatever the text is
(`Tree.Proper.exists_around_setText`).

A page that is written and read again has the title that it has in memory, if all texts can be read
where they are (`exists_parse_title_eq`). So a title without a bracket survives, unless the tag was
its own end tag: the slash that ended it is not written, and one in front of it may take its place.
-/

namespace PageMend

open Markup

namespace Markup.Tree

section
variable {t : Tree} {id : Nat} {e : Element}

/-- An element that was given a text is written with both its tags. -/
theorem write_setText (he : t.element? id = some e) (body : String) :
    (t.setText id body).write id =
      "<" ++ e.name ++ e.attributes ++ ">" ++ body ++ "</" ++ e.name ++ ">" := by
  have hid := lt_size_of_element? he
  have hkind : (t.setText id body).kind id = .element e := by
    rw [kind_setText hid, if_neg (Nat.ne_of_lt hid), kind_of_element? he]
  have hnew : (t.setText id body).write t.size = body := by
    rw [write_eq, kind_setText hid, if_pos rfl]
  rw [write_eq, hkind, children_setText hid, if_pos rfl]
  simp [enclose, hnew, String.join]

/-- Giving an element a text changes what is written of the element. What is written around it is
the same for all texts. -/
theorem Proper.exists_around_setText (h : t.Proper) (hon : id ∈ t.descendants Tree.root)
    (he : t.element? id = some e) :
    ∃ before after, t.serialize = before ++ t.write id ++ after ∧
      ∀ body, (t.setText id body).serialize =
        before ++ (t.setText id body).write id ++ after := by
  obtain ⟨before, after, haround⟩ :=
    h.linked.exists_around (fun _ hm => h.isLeaf_eq_false hm ⟨e, he⟩) hon
  refine ⟨String.ofList before, String.ofList after, ?_, fun body => ?_⟩
  · apply String.toList_injective
    rw [toList_serialize h.root, haround (patch_refl t id), spelling_rowForest_singleton]
    simp
  · apply String.toList_injective
    rw [toList_serialize (h.setText he body).root,
      haround (patch_setText (lt_size_of_element? he) body), spelling_rowForest_singleton]
    simp

end

end Markup.Tree

namespace Page

/-! ## The title in memory -/

section
variable {page : Page} {id : Nat}

theorem element_of_titleNode (hid : page.titleNode = some id) :
    id ∈ page.tree.descendants Tree.root ∧ ∃ e, page.tree.element? id = some e ∧
      e.hasName "title" = true :=
  Rule.element_of_mem_elementsNamed (List.mem_of_head? hid)

/-- A title that is set stays the first title. -/
theorem titleNode_setTitle (hl : page.tree.Linked) (hid : page.titleNode = some id)
    (title : String) : (page.setTitle title).1.titleNode = some id := by
  obtain ⟨hon, e, he, -⟩ := element_of_titleNode hid
  have hpos : 0 < page.tree.size := Nat.lt_of_le_of_lt (Nat.zero_le id) (lt_of_titleNode hid)
  have hframed : Framed "" { title := some id } page.tree (page.setTitle title).1.tree := by
    rw [setTitle_some hid]
    exact (framed_refl "" page.tree).retitle rfl hpos hl hon ⟨e, he⟩ title
  exact hframed.titleNode hpos hid (Sites.not_lost_title rfl rfl _)

/-- The title is what it was set to. -/
theorem title_setTitle (hl : page.tree.Linked) (hid : page.titleNode = some id)
    (title : String) : (page.setTitle title).1.title = some title := by
  have hnode := titleNode_setTitle hl hid title
  obtain ⟨-, e, he, -⟩ := element_of_titleNode hnode
  have hlt := lt_of_titleNode hid
  have htree : (page.setTitle title).1.tree = page.tree.setText id title := by
    rw [setTitle_some hid]
  have hbelow : (page.setTitle title).1.tree.descendants id = [page.tree.size] := by
    rw [htree, Tree.descendants_setText hlt]
  rw [Page.title, hnode]
  refine congrArg some (Rule.text_of_descendants (Tree.text?_of_element? he) hbelow ?_)
  rw [htree, Tree.text?, Tree.kind_setText hlt, if_pos rfl]
  rfl

/-! ## The title of a page that is read again -/

/-- The title is the text of the first title in the forest of the page. -/
theorem toList_title (page : Page) :
    page.title.map String.toList =
      ((page.tree.forest Tree.root).firstNamed "title").map Forest.text := by
  rw [Tree.firstNamed_forest, Option.map_map, Page.title, Option.map_map]
  show page.titleNode.map _ = page.titleNode.map _
  refine Option.map_congr fun id hid => ?_
  obtain ⟨-, e, he, -⟩ := element_of_titleNode hid
  exact Tree.toList_text (Tree.text?_of_element? he)

/-- What is written of a page is read as a page with the same title, if the texts of the page can be
read where they are. -/
theorem exists_parse_title_eq (h : page.tree.Shaped)
    (hlegible : page.tree.LegibleBelow Tree.root) :
    ∃ t, parse page.serialize = .ok t ∧
      ∀ saved : Page, saved.tree = t → saved.title = page.title := by
  obtain ⟨t, hread, helements, -, -⟩ := parse_serialize_of_legible h hlegible
  have hbare := (h.forest_root hlegible).bare
  refine ⟨t, hread, fun saved hsaved => ?_⟩
  apply Option.map_injective fun _ _ h => String.toList_injective h
  rw [toList_title, toList_title, hsaved, Forest.firstNamed, helements, ← Forest.firstNamed,
    Rule.firstNamed_normalize hbare, Option.map_map]
  exact Option.map_congr fun f hf => Rule.text_normalize_of_firstNamed hbare hf

/-- A title that can have content keeps a page sound, if it is given no bracket. -/
theorem sound_setTitle (h : page.tree.Sound) (hid : page.titleNode = some id)
    (hleaf : (page.tree.kind id).isLeaf = false) {title : String} (hb : '<' ∉ title.toList) :
    (page.setTitle title).1.tree.Sound := by
  rw [setTitle_some hid]
  exact h.setText (lt_of_titleNode hid) hleaf (Rule.isRaw_of_title (List.mem_of_head? hid)) hb

/-- A title that is not its own end tag can have content. -/
theorem isLeaf_of_titleNode {e : Element} (hid : page.titleNode = some id)
    (he : page.tree.element? id = some e) (hclosing : e.selfClosing = false) :
    (page.tree.kind id).isLeaf = false := by
  obtain ⟨-, e', he', hname⟩ := element_of_titleNode hid
  obtain rfl := Option.some.inj (he.symm.trans he')
  have hvoid : isVoidName e.name = false := by
    rw [isVoidName, sameName_congr hname]
    decide
  rw [Tree.kind_of_element? he, Kind.isLeaf, Element.isLeaf, Element.isVoid, hvoid, hclosing]
  rfl

/-- Whatever the title of a page that was read is set to, it is then the title, of the same element;
the page is written as before, with both tags of the title around its new text in the place of what
was written of the title, and no node that was not below the title has changed. If the new text has
no bracket, and the title is not written as its own end tag, the page that is written can be read
again, and has that title. -/
theorem setTitle_replaces {text : String} (hp : parse text = .ok page.tree)
    (hid : page.titleNode = some id) :
    ∃ e before after, page.tree.element? id = some e ∧
      page.serialize = before ++ page.tree.write id ++ after ∧
      ∀ title : String,
        let edited := (page.setTitle title).1
        (page.setTitle title).2 = true ∧ edited.titleNode = some id ∧
          edited.title = some title ∧
          edited.serialize = before ++
            ("<" ++ e.name ++ e.attributes ++ ">" ++ title ++ "</" ++ e.name ++ ">") ++ after ∧
          edited = { page with tree := edited.tree } ∧
          (∀ n < page.tree.size, n ∉ page.tree.descendants id →
            edited.tree.kind n = page.tree.kind n ∧
              edited.tree.parent n = page.tree.parent n) ∧
          ('<' ∉ title.toList → e.selfClosing = false →
            ∃ t, parse edited.serialize = .ok t ∧
              ∀ saved : Page, saved.tree = t → saved.title = some title) := by
  have h : page.tree.Sound := sound_of_parse hp
  have hlinked : page.tree.Linked := h.shaped.linked
  have hlt := lt_of_titleNode hid
  obtain ⟨hon, e, he, -⟩ := element_of_titleNode hid
  obtain ⟨before, after, hbefore, hafter⟩ := h.shaped.proper.exists_around_setText hon he
  refine ⟨e, before, after, he, hbefore, fun title => ?_⟩
  intro edited
  have hedited : page.setTitle title = ({ page with tree := page.tree.setText id title }, true) :=
    setTitle_some hid title
  have htree : edited.tree = page.tree.setText id title := by
    show (page.setTitle title).1.tree = _
    rw [hedited]
  refine ⟨by rw [hedited], titleNode_setTitle hlinked hid title, title_setTitle hlinked hid title,
    ?_, ?_, fun n hn hout => ?_, fun hb hclosing => ?_⟩
  · rw [Page.serialize, htree, hafter, Tree.write_setText he]
  · show (page.setTitle title).1 = { page with tree := (page.setTitle title).1.tree }
    rw [hedited]
  · have hchild : n ∉ page.tree.children id := fun hc =>
      hout (Tree.mem_descendants_of_mem_children hc)
    rw [htree, Tree.kind_setText hlt, Tree.parent_setText hlt, if_neg (Nat.ne_of_lt hn),
      if_neg (Nat.ne_of_lt hn), if_neg hchild]
    exact ⟨rfl, rfl⟩
  · have hsound : edited.tree.Sound :=
      sound_setTitle h hid (isLeaf_of_titleNode hid he hclosing) hb
    obtain ⟨t, hread, hsame⟩ := exists_parse_title_eq hsound.shaped (hsound.legibleBelow Tree.root)
    exact ⟨t, hread, fun saved hsaved =>
      (hsame saved hsaved).trans (title_setTitle hlinked hid title)⟩

end

/-- A title with a title and a script in it is set to a text that looks like the start of a
reference. -/
theorem setTitle_replaces_nested :
    let source := "<p><TITLE a=1>x<title>y</title><script><b></script></TITLE><title>z</title></p>"
    ∃ t, parse source = .ok t ∧
      let page : Page := ⟨"", source, t, false⟩
      page.titleNode = some 2 ∧
        (page.setTitle ">&").1.serialize = "<p><TITLE a=1>>&</TITLE><title>z</title></p>" ∧
        ∃ t', parse "<p><TITLE a=1>>&</TITLE><title>z</title></p>" = .ok t' ∧
          ∀ saved : Page, saved.tree = t' → saved.title = some ">&" := by
  intro source
  have hrun : ((parse source).toOption.map fun t =>
      let page : Page := ⟨"", source, t, false⟩
      (page.titleNode, (page.tree.element? 2).map (·.selfClosing),
        (page.setTitle ">&").1.serialize)) =
      some (some 2, some false, "<p><TITLE a=1>>&</TITLE><title>z</title></p>") := by
    decide +kernel
  obtain ⟨t, hp, hrun⟩ := exists_ok_of_map hrun
  simp only [Prod.mk.injEq] at hrun
  obtain ⟨hid, hclosing, hwritten⟩ := hrun
  obtain ⟨e, _, _, he, -, hset⟩ := @setTitle_replaces ⟨"", source, t, false⟩ 2 source hp hid
  obtain ⟨-, -, -, -, -, -, hsaved⟩ := hset ">&"
  have hopen : e.selfClosing = false := by
    rw [he] at hclosing
    exact Option.some.inj hclosing
  have hread := hsaved (by decide) hopen
  rw [hwritten] at hread
  exact ⟨t, hp, hid, hwritten, hread⟩

end Page

end PageMend
