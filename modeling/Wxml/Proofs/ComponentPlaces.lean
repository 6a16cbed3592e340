import Wxml.Proofs.ComponentPrinting

/-!
# Where the blocks of a component stand

`Block.Placed` and `Comment.Placed` say that an item of a component stands in the source where its
spans say.  `Item.read_outcome` says so for one item, together with where it begins and ends.

`Component.Laid` is the invariant of `Component.readFrom` between two items: what was kept so far is
in its place, ends before the cursor, and no two items overlap.  One more item keeps it
(`Laid.add`), and `readFrom_laid` carries it through a whole source; a fault on the way points into
the source.
-/

namespace Wxml

/-! ### Spans in order -/

namespace Span

/-- The first span ends where the second begins, or earlier. -/
def Before (s t : Span) : Prop := s.stop ≤ t.start

/-- No byte is in both spans. -/
def Disjoint (s t : Span) : Prop := s.Before t ∨ t.Before s

theorem Disjoint.symm {s t : Span} (h : s.Disjoint t) : t.Disjoint s := Or.symm h

end Span

/-! ### Attributes of a block -/

/-- The attributes of a block stand one after another where their spans say, and no `>` stands
between them. -/
theorem Attribute.readAll_outcome {source : Text} (c : Cursor) (hin : c.In source) :
    Cursor.Outcome source Unterminated.span
      (fun as after => (∃ t, c.Reads t after) ∧
        Tiles source (· != '>') c.offset (as.map Attribute.span) after.offset ∧
        ∀ a ∈ as, a.Placed source)
      (readAll c) := by
  fun_induction readAll c with
  | case1 c hend =>
    obtain ⟨blanks, hblanks, hskip⟩ := c.reads_skipBlanks
    refine ⟨hin.reads hskip, ⟨_, hskip⟩, ?_, by simp⟩
    exact hin.gap hskip fun e he => bne_of_isBlank (hblanks e he)
  | case2 c hend hread ih =>
    obtain ⟨blanks, -, hskip⟩ := c.reads_skipBlanks
    have hbefore := hskip.trans (c.skipBlanks.reads_advance 1)
    obtain ⟨hin', hgap⟩ := gap_skip hin hend
    refine (ih hin').imp ?_
    rintro as after ⟨⟨t, hreads⟩, htiles, hplaced⟩
    exact ⟨⟨_, hbefore.trans hreads⟩, htiles.gap_append hgap, hplaced⟩
  | case3 c hend u hread => exact within_read? hin.skipBlanks hread
  | case4 c hend a after hread more last hmore ih =>
    obtain ⟨blanks, hblanks, hskip⟩ := c.reads_skipBlanks
    obtain ⟨hspan, t, hspelled, hattribute⟩ := reads_read? hread
    have hat := hin.reads hskip
    have hlater := ih (hat.reads hattribute)
    rw [hmore] at hlater
    obtain ⟨hlast, ⟨rest, hreads⟩, htiles, hplaced⟩ := hlater
    have hcovers := hat.covers hattribute
    rw [← hspan] at hcovers
    refine ⟨hlast, ⟨_, (hskip.trans hattribute).trans hreads⟩, ⟨?_, hcovers.start_le, ?_⟩, ?_⟩
    · rw [hspan]
      exact hin.gap hskip fun e he => bne_of_isBlank (hblanks e he)
    · rw [hspan]
      exact htiles
    · rw [List.forall_mem_cons]
      exact ⟨⟨t, hspelled, hcovers⟩, hplaced⟩
  | case5 c hend a after hread u hmore ih =>
    obtain ⟨-, t, -, hattribute⟩ := reads_read? hread
    have hlater := ih (hin.skipBlanks.reads hattribute)
    rwa [hmore] at hlater

/-! ### One item -/

/-- A block stands in a source where its spans say.  It starts with a `<`; its attributes follow
each other in its opening tag, and its content lies inside it. -/
structure Block.Placed (source : Text) (block : Block) : Prop where
  whole : ∃ rest, block.span.Covers source ('<' :: rest)
  attributes : ∃ a b, block.span.start < a ∧ b ≤ block.contentSpan.start ∧
    Tiles source (· != '>') a (block.attributes.map Attribute.span) b
  spelled : ∀ a ∈ block.attributes, a.Placed source
  content : block.contentSpan.Covers source block.content
  inside : block.span.start ≤ block.contentSpan.start ∧ block.contentSpan.stop ≤ block.span.stop

/-- A comment stands in a source where its span says. -/
def Comment.Placed (source : Text) (comment : Comment) : Prop :=
  comment.span.Covers source ("<!--" ++ (comment.content ++ "-->"))

theorem Cursor.Reads.offset_le {c d : Cursor} {t : Text} (h : c.Reads t d) :
    c.offset ≤ d.offset := by
  rw [h.offset]
  exact Nat.le_add_right _ _

namespace Component

variable {source : Text} {c : Cursor}

def Item.span : Item → Span
  | .comment c => c.span
  | .block b => b.span

def Item.Placed (source : Text) : Item → Prop
  | .comment c => c.Placed source
  | .block b => b.Placed source

/-- What the item at a cursor leads to: a cursor after it and the item, if there is one, in its
place between the two, or a fault at a place of the source. -/
def Item.Outcome (source : Text) (c : Cursor) : Except Fault (Option Item × Cursor) → Prop :=
  Cursor.Outcome source Fault.span fun found after =>
    (∃ t, c.Reads t after) ∧
      ∀ item ∈ found, item.Placed source ∧ item.span = ⟨c.offset, after.offset⟩

theorem Item.readBlock_outcome (hin : c.In source) (hc : c.rest.head? = some '<') :
    Item.Outcome source c (Item.readBlock c) := by
  obtain ⟨rest, hrest⟩ := List.head?_eq_some_iff.1 hc
  have hbracket : c.Reads ['<'] (c.advance 1) := by
    have := c.reads_advance 1
    rwa [hrest] at this
  obtain ⟨blanks, -, hskip⟩ := (c.advance 1).reads_skipBlanks
  have hinside := hbracket.trans hskip
  unfold Item.readBlock
  simp only
  split
  · exact ⟨hin.reads hinside, ⟨_, hinside⟩, by simp⟩
  · rename_i tag named hname
    have hnamed := hinside.trans (Cursor.reads_name? hname)
    have hstart : c.offset < named.offset := by
      have hsize := hnamed.offset
      rw [List.append_assoc, List.singleton_append, Text.size_cons] at hsize
      have := '<'.utf8Size_pos
      omega
    have hattributes := Attribute.readAll_outcome named (hin.reads hnamed)
    split
    · rename_i u hread
      rw [hread] at hattributes
      exact hattributes
    · rename_i attributes close hread
      rw [hread] at hattributes
      obtain ⟨-, ⟨t, hreads⟩, htiles, hspelled⟩ := hattributes
      have hclose := hnamed.trans hreads
      split
      · rename_i after hafter
        have hend := Cursor.reads_consume? hafter
        have hwhole := hclose.trans hend
        have hlast := hin.reads hwhole
        refine ⟨hlast, ⟨_, hwhole⟩, ?_⟩
        rintro item ⟨⟩
        refine ⟨⟨⟨_, hin.covers hwhole⟩,
          ⟨named.offset, close.offset, hstart, hend.offset_le, htiles⟩, hspelled,
          hlast.covers (.refl after), ?_⟩, rfl⟩
        exact ⟨hwhole.offset_le, Nat.le_refl _⟩
      · obtain ⟨bracket, hend⟩ := close.reads_consume ">"
        have hopened := hclose.trans hend
        have hbody := (close.consume ">").reads_body (Text.lower tag)
        split
        · exact hin.within hopened
        · obtain ⟨last, hlast⟩ : ∃ last,
              ((close.consume ">").body (Text.lower tag)).2.Reads last _ := by
            obtain ⟨more, -, hmore | ⟨hmore, -⟩⟩ :=
              ((close.consume ">").body (Text.lower tag)).2.reads_skipTag
            · exact ⟨_, hmore⟩
            · exact ⟨_, hmore⟩
          have hwhole := hopened.trans (hbody.trans hlast)
          refine ⟨hin.reads hwhole, ⟨_, hwhole⟩, ?_⟩
          rintro item ⟨⟩
          refine ⟨⟨⟨_, hin.covers hwhole⟩,
            ⟨named.offset, close.offset, hstart, hend.offset_le, htiles⟩, hspelled,
            (hin.reads hopened).covers hbody, ?_⟩, rfl⟩
          exact ⟨hopened.offset_le, hlast.offset_le⟩

theorem Item.read_outcome (hin : c.In source) : Item.Outcome source c (Item.read c) := by
  unfold Item.read
  split
  · rename_i hstarts
    split
    · rename_i content after hcomment
      have hreads := Cursor.reads_comment? hcomment
      refine ⟨hin.reads hreads, ⟨_, hreads⟩, ?_⟩
      rintro item ⟨⟩
      exact ⟨hin.covers hreads, rfl⟩
    · exact hin.within_pattern hstarts rfl
  · split
    · rename_i hstarts
      rw [Bool.and_eq_true] at hstarts
      obtain ⟨rest, hrest⟩ := Cursor.startsWith_iff.1 hstarts.1
      exact Item.readBlock_outcome hin (by rw [← hrest]; rfl)
    · exact ⟨hin.reads (c.reads_advance 1), ⟨_, c.reads_advance 1⟩, by simp⟩

/-! ### All items -/

/-- Where the blocks and the comments of a component stand. -/
def spans (component : Component) : List Span :=
  component.blocks.map Block.span ++ component.comments.map Comment.span

/-- What one more item adds to a component. -/
theorem add_cases {component next : Component} {item : Item} (h : component.add item = .ok next) :
    (∃ comment, item = .comment comment ∧
      next = { component with comments := component.comments ++ [comment] }) ∨
    ∃ block, item = .block block ∧ next.blocks.Perm (block :: component.blocks) ∧
      next.comments = component.comments ∧
      (next.styles = component.styles ∨ next.styles = component.styles ++ [block]) ∧
      (next.custom = component.custom ∨ next.custom = component.custom ++ [block]) := by
  cases item with
  | comment comment =>
    cases h
    exact .inl ⟨comment, rfl, rfl⟩
  | block block =>
    refine .inr ⟨block, rfl, ?_⟩
    rw [add] at h
    split_ifs at h with htemplate hheld hscript hheld hstyle
    · cases h
      rw [Option.not_isSome_iff_eq_none] at hheld
      refine ⟨?_, rfl, .inl rfl, .inl rfl⟩
      simp [blocks, hheld]
    · cases h
      rw [Option.not_isSome_iff_eq_none] at hheld
      refine ⟨?_, rfl, .inl rfl, .inl rfl⟩
      simp [blocks, hheld]
    · cases h
      refine ⟨?_, rfl, .inr rfl, .inl rfl⟩
      simp only [blocks, List.append_assoc, List.singleton_append]
      exact (((List.perm_middle.append_left _).trans List.perm_middle).append_left _).trans
        List.perm_middle
    · cases h
      refine ⟨?_, rfl, .inl rfl, .inr rfl⟩
      rw [blocks, ← List.append_assoc]
      exact List.perm_append_singleton _ _

/-- A second template or script is at fault where it stands. -/
theorem span_of_add {component : Component} {item : Item} {fault : Fault}
    (h : component.add item = .error fault) : fault.span = item.span := by
  cases item with
  | comment => cases h
  | block =>
    rw [add] at h
    split_ifs at h
    all_goals
      cases h
      rfl

/-- What was kept of a source up to an offset is in its place, in order, and nothing overlaps. -/
structure Laid (source : Text) (component : Component) (offset : Nat) : Prop where
  blocks : ∀ block ∈ component.blocks, block.Placed source
  comments : ∀ comment ∈ component.comments, comment.Placed source
  disjoint : component.spans.Pairwise Span.Disjoint
  stylesInOrder : (component.styles.map Block.span).Pairwise Span.Before
  customInOrder : (component.custom.map Block.span).Pairwise Span.Before
  commentsInOrder : (component.comments.map Comment.span).Pairwise Span.Before
  read : ∀ span ∈ component.spans, span.stop ≤ offset

theorem laid_empty (source : Text) : empty.Laid source 0 :=
  ⟨by simp [empty, Component.blocks], by simp [empty], by simp [empty, spans, Component.blocks],
    by simp [empty], by simp [empty], by simp [empty], by simp [empty, spans, Component.blocks]⟩

namespace Laid

variable {component next : Component} {a b : Nat}

theorem mono (h : component.Laid source a) (hle : a ≤ b) : component.Laid source b :=
  { h with read := fun span hspan => Nat.le_trans (h.read span hspan) hle }

theorem pairwise_append {spans : List Span} {span : Span} (h : spans.Pairwise Span.Before)
    (hread : ∀ s ∈ spans, s.stop ≤ span.start) : (spans ++ [span]).Pairwise Span.Before := by
  rw [List.pairwise_append]
  refine ⟨h, List.pairwise_singleton _ _, fun s hs t ht => ?_⟩
  rw [List.mem_singleton.1 ht]
  exact hread s hs

/-- A kind of block keeps its order when there is one more block, of this kind or not. -/
theorem pairwise_blocks {kept more : List Block} {block : Block}
    (h : (kept.map Block.span).Pairwise Span.Before)
    (hread : ∀ s ∈ kept.map Block.span, s.stop ≤ block.span.start)
    (hmore : more = kept ∨ more = kept ++ [block]) :
    (more.map Block.span).Pairwise Span.Before := by
  rcases hmore with rfl | rfl
  · exact h
  · rw [List.map_append, List.map_singleton]
    exact pairwise_append h hread

/-- One more item that begins where the others have ended. -/
theorem add {item : Item} (h : component.Laid source a) (hplaced : item.Placed source)
    (hspan : item.span = ⟨a, b⟩) (hle : a ≤ b) (hadd : component.add item = .ok next) :
    next.Laid source b := by
  have hstart : ∀ s ∈ component.spans, s.stop ≤ item.span.start := by
    intro s hs
    rw [hspan]
    exact h.read s hs
  -- The item is one more span, wherever it is put.
  suffices hkept : next.spans.Perm (item.span :: component.spans) ∧
      (∀ block ∈ next.blocks, block.Placed source) ∧
      (∀ comment ∈ next.comments, comment.Placed source) ∧
      (next.styles.map Block.span).Pairwise Span.Before ∧
      (next.custom.map Block.span).Pairwise Span.Before ∧
      (next.comments.map Comment.span).Pairwise Span.Before by
    obtain ⟨hperm, hblocks, hcomments, hstyles, hcustom, hremarks⟩ := hkept
    refine ⟨hblocks, hcomments, ?_, hstyles, hcustom, hremarks, fun s hs => ?_⟩
    · rw [hperm.pairwise_iff Span.Disjoint.symm, List.pairwise_cons]
      exact ⟨fun s hs => .inr (hstart s hs), h.disjoint⟩
    · rcases List.mem_cons.1 (hperm.mem_iff.1 hs) with rfl | hs
      · rw [hspan]
      · exact Nat.le_trans (h.read s hs) hle
  have hblock : ∀ kept ⊆ component.blocks, ∀ s ∈ kept.map Block.span,
      s.stop ≤ item.span.start := by
    intro kept hkept s hs
    obtain ⟨block, hmem, rfl⟩ := List.mem_map.1 hs
    exact hstart _ (List.mem_append_left _ (List.mem_map_of_mem (hkept hmem)))
  rcases add_cases hadd with ⟨comment, rfl, rfl⟩ | ⟨block, rfl, hperm, hsame, hstyles, hcustom⟩
  · refine ⟨?_, h.blocks, ?_, h.stylesInOrder, h.customInOrder, ?_⟩
    · simp only [spans, List.map_append, List.map_singleton, ← List.append_assoc]
      exact List.perm_append_singleton _ _
    · simp only [List.mem_append, List.mem_singleton]
      rintro other (hother | rfl)
      · exact h.comments other hother
      · exact hplaced
    · rw [List.map_append, List.map_singleton]
      exact pairwise_append h.commentsInOrder fun s hs => hstart s (List.mem_append_right _ hs)
  · have hstylesIn : component.styles ⊆ component.blocks := fun x hx => by
      simp [Component.blocks, hx]
    have hcustomIn : component.custom ⊆ component.blocks := fun x hx => by
      simp [Component.blocks, hx]
    refine ⟨?_, ?_, by rw [hsame]; exact h.comments,
      pairwise_blocks h.stylesInOrder (hblock _ hstylesIn) hstyles,
      pairwise_blocks h.customInOrder (hblock _ hcustomIn) hcustom,
      by rw [hsame]; exact h.commentsInOrder⟩
    · rw [spans, hsame]
      exact (hperm.map _).append_right _
    · intro other hother
      rcases List.mem_cons.1 (hperm.mem_iff.1 hother) with rfl | hother
      · exact hplaced
      · exact h.blocks other hother

end Laid

/-- What is read from a source is in its place, and a fault that is met points into it. -/
theorem readFrom_laid (component : Component) (c : Cursor) (hin : c.In source)
    (h : component.Laid source c.offset) :
    match readFrom component c with
    | .ok result => result.Laid source (Text.size source)
    | .error fault => fault.span.Within source := by
  fun_induction readFrom component c with
  | case1 component c hend =>
    obtain ⟨blanks, -, hskip⟩ := c.reads_skipBlanks
    refine h.mono ?_
    rw [← hin.skipBlanks.offset_eq_size hend]
    exact hskip.offset_le
  | case2 component c hend fault hread =>
    have hfault := Item.read_outcome hin.skipBlanks
    rwa [hread] at hfault
  | case3 component c hend after hread ih =>
    obtain ⟨blanks, -, hskip⟩ := c.reads_skipBlanks
    have hafter := Item.read_outcome hin.skipBlanks
    rw [hread] at hafter
    obtain ⟨hlast, ⟨t, hreads⟩, -⟩ := hafter
    exact ih hlast (h.mono (hskip.trans hreads).offset_le)
  | case4 component c hend item after hread fault hadd =>
    have hafter := Item.read_outcome hin.skipBlanks
    rw [hread] at hafter
    obtain ⟨-, ⟨t, hreads⟩, hitem⟩ := hafter
    obtain ⟨-, hspan⟩ := hitem item rfl
    show fault.span.Within source
    rw [span_of_add hadd, hspan]
    exact hin.skipBlanks.within hreads
  | case5 component c hend item after hread component' hadd ih =>
    obtain ⟨blanks, -, hskip⟩ := c.reads_skipBlanks
    have hafter := Item.read_outcome hin.skipBlanks
    rw [hread] at hafter
    obtain ⟨hlast, ⟨t, hreads⟩, hitem⟩ := hafter
    obtain ⟨hplaced, hspan⟩ := hitem item rfl
    exact ih hlast ((h.mono hskip.offset_le).add hplaced hspan hreads.offset_le hadd)

theorem read_laid (source : Text) :
    match read source with
    | .ok component => component.Laid source (Text.size source)
    | .error fault => fault.span.Within source :=
  readFrom_laid empty _ (Cursor.in_start source) (laid_empty source)

/-- The blocks and comments of a component stand in the source where their spans say, with their
attributes and contents.  No two of them overlap, and each list is in the order of the source. -/
theorem blocks_and_comments_placed {source : Text} {component : Component}
    (hsize : Text.size source < Span.offsetLimit) (h : read source = .ok component) :
    (∀ block ∈ component.blocks, block.Placed source) ∧
      (∀ comment ∈ component.comments, comment.Placed source) ∧
      (∀ span ∈ component.spans, span.stop < Span.offsetLimit) ∧
      component.spans.Pairwise Span.Disjoint ∧
      (component.styles.map Block.span).Pairwise Span.Before ∧
      (component.custom.map Block.span).Pairwise Span.Before ∧
      (component.comments.map Comment.span).Pairwise Span.Before := by
  have hlaid := read_laid source
  rw [h] at hlaid
  refine ⟨hlaid.blocks, hlaid.comments, fun span hspan => ?_, hlaid.disjoint, hlaid.stylesInOrder,
    hlaid.customInOrder, hlaid.commentsInOrder⟩
  exact Nat.lt_of_le_of_lt (hlaid.read span hspan) hsize

/-- Two styles around a script that closes itself, a template inside the template, letters of two
bytes, text that belongs to no block, and a closing tag that the source ends in. -/
def placedSample : Text :=
  "<!-- é --><style a =\"é\" b>é</style> x <script src='y'/>< Template ><template>é</template>" ++
    "</TEMPLATE><!----><style></style></p><i18n></i18n"

theorem blocks_and_comments_placed_sample :
    Text.size placedSample < Span.offsetLimit ∧
      ∃ component, read placedSample = .ok component ∧ component.spans.length = 7 ∧
        (∀ block ∈ component.blocks, block.Placed placedSample) ∧
        (∀ comment ∈ component.comments, comment.Placed placedSample) ∧
        (∀ span ∈ component.spans, span.stop < Span.offsetLimit) ∧
        component.spans.Pairwise Span.Disjoint ∧
        (component.styles.map Block.span).Pairwise Span.Before ∧
        (component.custom.map Block.span).Pairwise Span.Before ∧
        (component.comments.map Comment.span).Pairwise Span.Before := by
  have hsize : Text.size placedSample < Span.offsetLimit := by decide +kernel
  have hsome : ∃ component ∈ (read placedSample).toOption, component.spans.length = 7 := by
    decide +kernel
  obtain ⟨component, hcomponent, hspans⟩ := hsome
  have h : read placedSample = .ok component := eq_ok_of_toOption hcomponent
  exact ⟨hsize, component, h, hspans, blocks_and_comments_placed hsize h⟩

end Component

end Wxml
