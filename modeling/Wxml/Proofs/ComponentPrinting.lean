import Wxml.Component.Reader
import Wxml.Proofs.BlockBody

/-!
# Printing components

`Component.Prints items source` says that a source is some items written one after another, with
blanks between them.  Reading it gives the items back, up to where they stand, sorted by what they
are for.

* `Item.read_block` and `Item.read_comment` read one item; `readFrom_printed` reads them all, and
  adds them to the component one by one.
* `foldlM_add_spec` says what becomes of items that are added one by one.
* `read_printed` is the result: the items sorted, or the fault that there are two templates or two
  scripts.
-/

namespace Wxml

/-! ### Items that stand nowhere -/

/-- A block that stands nowhere, nor do its attributes. -/
def Block.unplaced (b : Block) : Block :=
  ⟨b.name, b.attributes.map Attribute.unplaced, b.content, .empty 0, .empty 0⟩

def Comment.unplaced (c : Comment) : Comment := ⟨c.content, .empty 0⟩

namespace Component

def Item.unplaced : Item → Item
  | .comment c => .comment c.unplaced
  | .block b => .block b.unplaced

/-- A component without the places of its blocks and comments. -/
def unplaced (component : Component) : Component :=
  ⟨component.template.map Block.unplaced, component.script.map Block.unplaced,
    component.styles.map Block.unplaced, component.custom.map Block.unplaced,
    component.comments.map Comment.unplaced⟩

/-! ### Printed items -/

/-- A source is some items written one after another, with blanks before, between and after them. -/
inductive Prints : List Item → Text → Prop
  | nil {blanks : Text} (blank : Text.allBlank blanks = true) : Prints [] blanks
  | comment {blanks content t : Text} {span : Span} {items : List Item}
      (blank : Text.allBlank blanks = true) (rest : Prints items t) :
      Prints (.comment ⟨content, span⟩ :: items)
        (blanks ++ ("<!--" ++ (content ++ ("-->" ++ t))))
  | block {b : Block} {blanks attributes t : Text} {items : List Item}
      (blank : Text.allBlank blanks = true) (inTag : Attribute.Written b.attributes attributes)
      (rest : Prints items t) :
      Prints (.block b :: items)
        (blanks ++ '<' :: (b.name ++ (attributes ++ '>' :: (b.content ++
          ("</" ++ b.name ++ '>' :: t)))))

end Component

namespace Cursor

/-- Whether a text is the name of a block, read in one piece. -/
def isBlockName : Text → Bool
  | [] => false
  | c :: t => isTagHead c && t.all isTagChar

theorem isTagHead_not {c : Char} (h : isTagHead c = true) :
    isBlank c = false ∧ c ≠ '/' ∧ c ≠ '!' := by
  simp only [isTagHead, Bool.or_eq_true, beq_iff_eq] at h
  rcases h with halpha | rfl
  · refine ⟨isBlank_of_isAlpha halpha, ?_, ?_⟩
    all_goals
      rintro rfl
      revert halpha
      decide
  · decide

theorem isTagChar_of_isTagHead {c : Char} (h : isTagHead c = true) : isTagChar c = true := by
  simp only [isTagHead, Bool.or_eq_true, beq_iff_eq] at h
  rcases h with halpha | rfl
  · simp [isTagChar, Char.isAlphanum, halpha]
  · decide

theorem isTagChar_of_isBlockName {name : Text} (h : isBlockName name = true) :
    ∀ c ∈ name, isTagChar c = true := by
  cases name with
  | nil => simp
  | cons d name =>
    rw [isBlockName, Bool.and_eq_true, List.all_eq_true] at h
    intro c hc
    cases List.mem_cons.1 hc with
    | inl head => exact head ▸ isTagChar_of_isTagHead h.1
    | inr tail => exact h.2 c tail

theorem tagName?_append {name rest : Text} (k : Nat) (h : isBlockName name = true)
    (hrest : ∀ c, rest.head? = some c → isTagChar c = false) :
    (⟨k, name ++ rest⟩ : Cursor).tagName? = some (name, ⟨k + Text.size name, rest⟩) := by
  cases name with
  | nil => cases h
  | cons c name =>
    rw [isBlockName, Bool.and_eq_true, List.all_eq_true] at h
    have htaken : (name ++ rest).takeWhile isTagChar = name :=
      Text.takeWhile_append_stop h.2 hrest
    simp only [tagName?, name?, List.cons_append, h.1, ↓reduceIte, htaken]
    exact congrArg (fun c' => some (c :: name, c')) (advance_append k (c :: name) rest)

theorem skipBlanks_append {blanks rest : Text} (k : Nat) (h : Text.allBlank blanks = true)
    (hrest : ∀ c, rest.head? = some c → isBlank c = false) :
    (⟨k, blanks ++ rest⟩ : Cursor).skipBlanks = ⟨k + Text.size blanks, rest⟩ :=
  congrArg Prod.snd (takeWhile_append k (List.all_eq_true.1 h) hrest)

end Cursor

namespace Attribute

theorem readAll_eq (c : Cursor) :
    readAll c =
      if atTagEnd c.skipBlanks then .ok ([], c.skipBlanks)
      else
        match read? c.skipBlanks with
        | none => readAll (c.skipBlanks.advance 1)
        | some (.error u) => .error u
        | some (.ok (a, after)) =>
          match readAll after with
          | .ok (more, last) => .ok (a :: more, last)
          | .error u => .error u := by
  rw [readAll]
  by_cases hend : atTagEnd c.skipBlanks
  · simp [hend]
  · simp only [hend, Bool.false_eq_true, ↓reduceDIte, ↓reduceIte]
    split
    · rename_i hread
      rw [hread]
    · rename_i hread
      rw [hread]
    · rename_i a after hread
      cases hmore : readAll after <;> simp only [hread, hmore]

theorem readAll_skipBlanks (c : Cursor) : readAll c.skipBlanks = readAll c := by
  rw [readAll_eq c.skipBlanks, readAll_eq c, Cursor.skipBlanks_skipBlanks]

/-- One more attribute is read before others. -/
theorem readAll_cons {c after last : Cursor} {a : Attribute} {more : List Attribute}
    (hend : ¬ atTagEnd c.skipBlanks = true) (hread : read? c.skipBlanks = some (.ok (a, after)))
    (hmore : readAll after = .ok (more, last)) : readAll c = .ok (a :: more, last) := by
  rw [readAll_eq, if_neg hend, hread]
  simp [hmore]

/-- Attributes are read back as they were written, whether or not a name comes twice. -/
theorem readAll_written {as : List Attribute} {t : Text} (h : Written as t) :
    (∀ a ∈ as, Cursor.isAttributeName a.key = true) → ∀ (k : Nat) (rest : Text),
      ∃ as' k', readAll ⟨k, t ++ '>' :: rest⟩ = .ok (as', ⟨k', '>' :: rest⟩) ∧
        as'.map unplaced = as.map unplaced := by
  have hends : ∀ rest : Text, EndsTag ('>' :: rest) := fun rest => ⟨rest, .inl rfl⟩
  induction h with
  | nil =>
    intro _ k rest
    have hskip : (⟨k, '>' :: rest⟩ : Cursor).skipBlanks = ⟨k, '>' :: rest⟩ :=
      Cursor.skipBlanks_eq_self (Text.forall_head?_cons (by decide))
    have hat : atTagEnd ⟨k, '>' :: rest⟩ = true := by
      simp [atTagEnd, Cursor.atEnd, Cursor.startsWith]
    refine ⟨[], k, ?_, rfl⟩
    rw [List.nil_append, readAll_eq, hskip, if_pos hat]
  | @flag key span as t written ih =>
    intro hkeys k rest
    rw [List.forall_mem_cons] at hkeys
    have hfollows := written.followsName hkeys.2 (hends rest)
    obtain ⟨hskip, hat⟩ := atTagEnd_key (t := t ++ '>' :: rest) k hkeys.1
    obtain ⟨span', k₁, hread⟩ := read?_flag (k + 1) hkeys.1 hfollows
    obtain ⟨as', k₂, hmore, halike⟩ := ih hkeys.2 k₁ rest
    refine ⟨⟨key, none, span'⟩ :: as', k₂, ?_, by simp [halike, unplaced]⟩
    rw [List.cons_append, List.append_assoc]
    refine readAll_cons (by rwa [hskip]) (by rw [hskip]; exact hread) ?_
    rwa [readAll_skipBlanks]
  | @valued key value span q as t quote clear written ih =>
    intro hkeys k rest
    rw [List.forall_mem_cons] at hkeys
    obtain ⟨hskip, hat⟩ :=
      atTagEnd_key (t := '=' :: q :: (value ++ q :: (t ++ '>' :: rest))) k hkeys.1
    obtain ⟨span', k₁, hread⟩ := read?_valued (t := t ++ '>' :: rest) (k + 1) hkeys.1 quote clear
    obtain ⟨as', k₂, hmore, halike⟩ := ih hkeys.2 k₁ rest
    refine ⟨⟨key, some value, span'⟩ :: as', k₂, ?_, by simp [halike, unplaced]⟩
    have htext : ' ' :: (key ++ '=' :: q :: (value ++ q :: t)) ++ '>' :: rest =
        ' ' :: (key ++ '=' :: q :: (value ++ q :: (t ++ '>' :: rest))) := by simp
    rw [htext]
    exact readAll_cons (by rwa [hskip]) (by rw [hskip]; exact hread) hmore

theorem Written.head? {as : List Attribute} {t : Text} (h : Written as t) (rest : Text) :
    ∀ c, (t ++ '>' :: rest).head? = some c → c = ' ' ∨ c = '>' := by
  cases h with
  | nil => exact Text.forall_head?_cons (.inr rfl)
  | flag _ => exact Text.forall_head?_cons (.inl rfl)
  | valued _ _ _ => exact Text.forall_head?_cons (.inl rfl)

end Attribute

/-! ### Reading one item -/

/-- A block whose tags can be read back: its name is one in small letters, and those of its
attributes are names. -/
structure Block.Named (b : Block) : Prop where
  name : Cursor.isBlockName b.name = true
  small : Text.lower b.name = b.name
  keys : ∀ a ∈ b.attributes, Cursor.isAttributeName a.key = true

/-- A block whose content ends at its closing tag, whatever comes after it. -/
def Block.Closed (b : Block) : Prop :=
  ∀ rest, Body.length b.name 0 (b.content ++ ("</" ++ b.name ++ '>' :: rest)) = b.content.length

namespace Component

theorem Item.readBlock_printed {b : Block} {attributes : Text} (hnamed : b.Named)
    (hclosed : b.Closed) (hwritten : Attribute.Written b.attributes attributes) (k : Nat)
    (t : Text) :
    ∃ b' k', Item.readBlock ⟨k, '<' :: (b.name ++ (attributes ++ '>' :: (b.content ++
        ("</" ++ b.name ++ '>' :: t))))⟩ = .ok (some (.block b'), ⟨k', t⟩) ∧
      b'.unplaced = b.unplaced := by
  obtain ⟨hname, hsmall, hkeys⟩ := hnamed
  have hmarks : '>' ∉ ("</" ++ b.name : Text) := by
    have := Template.not_mem_of_isTagChar (Cursor.isTagChar_of_isBlockName hname)
    simpa using this
  -- the tag
  have hadvance : (⟨k, '<' :: (b.name ++ (attributes ++ '>' :: (b.content ++
      ("</" ++ b.name ++ '>' :: t))))⟩ : Cursor).advance 1 =
      ⟨k + 1, b.name ++ (attributes ++ '>' :: (b.content ++ ("</" ++ b.name ++ '>' :: t)))⟩ :=
    Cursor.advance_append k ['<'] _
  have hskip : ∀ rest, (⟨k + 1, b.name ++ rest⟩ : Cursor).skipBlanks = ⟨k + 1, b.name ++ rest⟩ := by
    intro rest
    refine Cursor.skipBlanks_eq_self fun d hd => ?_
    cases hparts : b.name with
    | nil =>
      rw [hparts] at hname
      cases hname
    | cons c name =>
      rw [hparts, Cursor.isBlockName, Bool.and_eq_true] at hname
      rw [hparts] at hd
      cases hd
      exact (Cursor.isTagHead_not hname.1).1
  have hstop : ∀ c, (attributes ++ '>' :: (b.content ++ ("</" ++ b.name ++ '>' :: t))).head? =
      some c → Cursor.isTagChar c = false := by
    intro c hc
    rcases hwritten.head? _ c hc with rfl | rfl <;> decide
  have htag := Cursor.tagName?_append (k + 1) hname hstop
  obtain ⟨as', k₁, hattributes, halike⟩ := Attribute.readAll_written hwritten hkeys
    (k + 1 + Text.size b.name) (b.content ++ ("</" ++ b.name ++ '>' :: t))
  have hnotClosed : (⟨k₁, '>' :: (b.content ++ ("</" ++ b.name ++ '>' :: t))⟩ : Cursor).consume?
      "/>" = none := Cursor.consume?_eq_none (by simp)
  have hopened : (⟨k₁, '>' :: (b.content ++ ("</" ++ b.name ++ '>' :: t))⟩ : Cursor).consume ">" =
      ⟨k₁ + 1, b.content ++ ("</" ++ b.name ++ '>' :: t)⟩ := by
    have := Cursor.consume?_append k₁ ">" (b.content ++ ("</" ++ b.name ++ '>' :: t))
    exact congrArg (Option.getD · _) this
  -- the content and the closing tag
  have hbody : (⟨k₁ + 1, b.content ++ ("</" ++ b.name ++ '>' :: t)⟩ : Cursor).body b.name =
      (b.content, ⟨k₁ + 1 + Text.size b.content, "</" ++ b.name ++ '>' :: t⟩) := by
    rw [Cursor.body]
    simp only [hclosed t, List.take_left, Cursor.advance_append]
  obtain ⟨k₂, hskipTag⟩ := Cursor.skipTag_append (k₁ + 1 + Text.size b.content) t hmarks
  refine ⟨⟨b.name, as', b.content, ⟨k₁ + 1, k₁ + 1 + Text.size b.content⟩, ⟨k, k₂⟩⟩, k₂, ?_, ?_⟩
  · rw [Item.readBlock, hadvance, hskip, htag]
    simp only [hattributes, hnotClosed, hopened, hsmall, hbody, hskipTag]
    rw [if_neg (by simp [Cursor.atEnd])]
    rfl
  · simp [Block.unplaced, halike]

/-- An item that is read back from what it is printed as. -/
def Item.Readable : Item → Prop
  | .comment c => ¬ ("-->" : Text) <:+: c.content
  | .block b => b.Named ∧ b.Closed

theorem Item.read_comment {content : Text} (k : Nat) (t : Text)
    (h : ¬ ("-->" : Text) <:+: content) :
    ∃ span k', Item.read ⟨k, "<!--" ++ (content ++ ("-->" ++ t))⟩ =
      .ok (some (.comment ⟨content, span⟩), ⟨k', t⟩) := by
  obtain ⟨k', hcomment⟩ := Cursor.comment?_append k t h
  refine ⟨⟨k, k'⟩, k', ?_⟩
  rw [Item.read, if_pos (Cursor.startsWith_iff.2 ⟨_, rfl⟩), hcomment]
  rfl

theorem Item.read_block {b : Block} {attributes : Text} (hnamed : b.Named) (hclosed : b.Closed)
    (hwritten : Attribute.Written b.attributes attributes) (k : Nat) (t : Text) :
    ∃ b' k', Item.read ⟨k, '<' :: (b.name ++ (attributes ++ '>' :: (b.content ++
        ("</" ++ b.name ++ '>' :: t))))⟩ = .ok (some (.block b'), ⟨k', t⟩) ∧
      b'.unplaced = b.unplaced := by
  obtain ⟨b', k', hread, halike⟩ := Item.readBlock_printed hnamed hclosed hwritten k t
  refine ⟨b', k', ?_, halike⟩
  have hname := hnamed.name
  cases hparts : b.name with
  | nil =>
    rw [hparts] at hname
    cases hname
  | cons c name =>
    rw [hparts, Cursor.isBlockName, Bool.and_eq_true] at hname
    obtain ⟨-, hslash, hbang⟩ := Cursor.isTagHead_not hname.1
    rw [hparts] at hread
    rw [Item.read, if_neg, if_pos, hread]
    · simp [Cursor.startsWith, List.isPrefixOf, Ne.symm hslash]
    · simp [Cursor.startsWith, List.isPrefixOf, Ne.symm hbang]

/-! ### Reading all items -/

theorem readFrom_eq (component : Component) (c : Cursor) :
    readFrom component c =
      if c.skipBlanks.rest = [] then .ok component
      else
        match Item.read c.skipBlanks with
        | .error fault => .error fault
        | .ok (none, after) => readFrom component after
        | .ok (some item, after) =>
          match component.add item with
          | .error fault => .error fault
          | .ok component => readFrom component after := by
  rw [readFrom]
  by_cases hend : c.skipBlanks.rest = []
  · simp [hend]
  · simp only [hend, ↓reduceDIte, ↓reduceIte]
    split
    · rename_i hread
      rw [hread]
    · rename_i hread
      rw [hread]
    · rename_i item after hread
      cases hadd : component.add item <;> simp only [hread, hadd]

/-- An item that is read is added before those after it. -/
theorem readFrom_of_read {component : Component} {blanks t : Text} {k k' : Nat} {item : Item}
    (rest : Text) (hblank : Text.allBlank blanks = true) (ht : t.head? = some '<')
    (hread : Item.read ⟨k + Text.size blanks, t⟩ = .ok (some item, ⟨k', rest⟩)) :
    readFrom component ⟨k, blanks ++ t⟩ =
      (component.add item).bind fun component => readFrom component ⟨k', rest⟩ := by
  have hstop : ∀ c, t.head? = some c → isBlank c = false := by
    intro c hc
    rw [ht] at hc
    cases hc
    decide
  have hne : t ≠ [] := by
    rintro rfl
    cases ht
  rw [readFrom_eq, Cursor.skipBlanks_append k hblank hstop, if_neg hne]
  simp only [hread]
  cases component.add item <;> rfl

/-- A printed component is read item by item, each as it was printed. -/
theorem readFrom_printed {items : List Item} {source : Text} (h : Prints items source) :
    (∀ item ∈ items, item.Readable) → ∀ (component : Component) (k : Nat),
      ∃ items' : List Item, items'.map Item.unplaced = items.map Item.unplaced ∧
        readFrom component ⟨k, source⟩ = items'.foldlM add component := by
  induction h with
  | @nil blanks blank =>
    intro _ component k
    have hskip : (⟨k, blanks⟩ : Cursor).skipBlanks.rest = [] := by
      have := @Cursor.skipBlanks_append blanks [] k blank (by simp)
      rw [List.append_nil] at this
      rw [this]
    refine ⟨[], rfl, ?_⟩
    rw [readFrom_eq, if_pos hskip]
    rfl
  | @comment blanks content t span items blank rest ih =>
    intro hreadable component k
    rw [List.forall_mem_cons] at hreadable
    obtain ⟨span', k', hread⟩ := Item.read_comment (k + Text.size blanks) t hreadable.1
    cases hadd : component.add (.comment ⟨content, span'⟩) with
    | error fault => cases hadd
    | ok next =>
      obtain ⟨items', halike, hrest⟩ := ih hreadable.2 next k'
      refine ⟨.comment ⟨content, span'⟩ :: items', ?_, ?_⟩
      · simp [halike, Item.unplaced, Comment.unplaced]
      · rw [readFrom_of_read t blank rfl hread, List.foldlM_cons, hadd]
        exact hrest
  | @block b blanks attributes t items blank inTag rest ih =>
    intro hreadable component k
    rw [List.forall_mem_cons] at hreadable
    obtain ⟨b', k', hread, hb⟩ :=
      Item.read_block hreadable.1.1 hreadable.1.2 inTag (k + Text.size blanks) t
    cases hadd : component.add (.block b') with
    | error fault =>
      refine ⟨.block b' :: items, by simp [Item.unplaced, hb], ?_⟩
      rw [readFrom_of_read t blank rfl hread, List.foldlM_cons, hadd]
      rfl
    | ok next =>
      obtain ⟨items', halike, hrest⟩ := ih hreadable.2 next k'
      refine ⟨.block b' :: items', by simp [halike, Item.unplaced, hb], ?_⟩
      rw [readFrom_of_read t blank rfl hread, List.foldlM_cons, hadd]
      exact hrest

/-! ### Sorting items -/

def Item.block? : Item → Option Block
  | .comment _ => none
  | .block b => some b

def Item.comment? : Item → Option Comment
  | .comment c => some c
  | .block _ => none

/-- The blocks of a name among some items. -/
def named (name : Text) (items : List Item) : List Block :=
  (items.filterMap Item.block?).filter (·.name = name)

/-- The blocks among some items that are neither templates nor scripts nor styles. -/
def others (items : List Item) : List Block :=
  (items.filterMap Item.block?).filter (·.name ∉ (["template", "script", "style"] : List Text))

/-- Some items sorted by what they are for, after those of a component: the first template and the
first script, all styles, all other blocks and all comments. -/
def sorted (component : Component) (items : List Item) : Component :=
  ⟨component.template.or (named "template" items).head?,
    component.script.or (named "script" items).head?, component.styles ++ named "style" items,
    component.custom ++ others items, component.comments ++ items.filterMap Item.comment?⟩

/-- How many blocks of a name there are among some items and one that may be held. -/
def total (name : Text) (held : Option Block) (items : List Item) : Nat :=
  (held.toList ++ named name items).length

section Named

variable {b : Block} {name : Text} (items : List Item)

theorem named_of_eq (h : b.name = name) :
    named name (.block b :: items) = b :: named name items := by
  simp [named, Item.block?, h]

theorem named_of_ne (h : b.name ≠ name) : named name (.block b :: items) = named name items := by
  simp [named, Item.block?, h]

theorem others_of_mem (h : b.name ∈ (["template", "script", "style"] : List Text)) :
    others (.block b :: items) = others items :=
  List.filter_cons_of_neg (by rw [decide_eq_true_eq]; exact not_not_intro h)

theorem others_of_not_mem (h : b.name ∉ (["template", "script", "style"] : List Text)) :
    others (.block b :: items) = b :: others items :=
  List.filter_cons_of_pos (decide_eq_true h)

theorem total_of_eq (h : b.name = name) :
    total name (some b) items = total name none (.block b :: items) := by
  rw [total, total, named_of_eq items h]
  rfl

theorem total_of_ne (held : Option Block) (h : b.name ≠ name) :
    total name held items = total name held (.block b :: items) := by
  rw [total, total, named_of_ne items h]

theorem one_lt_total (held : Block) (h : b.name = name) :
    1 < total name (some held) (.block b :: items) := by
  rw [total, named_of_eq items h]
  simp

end Named

/-- One more item leaves the totals as they are and is the first to be sorted in, unless it is a
template or a script and there is one. -/
theorem add_spec (component : Component) (item : Item) (items : List Item) :
    match component.add item with
    | .ok next =>
      total "template" next.template items = total "template" component.template (item :: items) ∧
        total "script" next.script items = total "script" component.script (item :: items) ∧
        sorted next items = sorted component (item :: items)
    | .error fault => ∃ name span, fault = .duplicate name span ∧
        (name = ("template" : Text) ∧ 1 < total "template" component.template (item :: items) ∨
          name = ("script" : Text) ∧ 1 < total "script" component.script (item :: items)) := by
  cases item with
  | comment c =>
    refine ⟨rfl, rfl, ?_⟩
    simp only [sorted, List.append_assoc]
    rfl
  | block b =>
    rw [add]
    split_ifs with htemplate hheld hscript hheld hstyle
    · obtain ⟨held, hheld⟩ := Option.isSome_iff_exists.1 hheld
      refine ⟨b.name, b.span, rfl, .inl ⟨htemplate, ?_⟩⟩
      rw [hheld]
      exact one_lt_total items held htemplate
    · rw [Option.not_isSome_iff_eq_none] at hheld
      have hscript : b.name ≠ ("script" : Text) := by rw [htemplate]; decide
      have hstyle : b.name ≠ ("style" : Text) := by rw [htemplate]; decide
      refine ⟨?_, total_of_ne items component.script hscript, ?_⟩
      · rw [hheld]
        exact total_of_eq items htemplate
      · rw [sorted, sorted, named_of_eq items htemplate, named_of_ne items hscript,
          named_of_ne items hstyle, others_of_mem items (by simp [htemplate]), hheld]
        rfl
    · obtain ⟨held, hheld⟩ := Option.isSome_iff_exists.1 hheld
      refine ⟨b.name, b.span, rfl, .inr ⟨hscript, ?_⟩⟩
      rw [hheld]
      exact one_lt_total items held hscript
    · rw [Option.not_isSome_iff_eq_none] at hheld
      have hstyle : b.name ≠ ("style" : Text) := by rw [hscript]; decide
      refine ⟨total_of_ne items component.template htemplate, ?_, ?_⟩
      · rw [hheld]
        exact total_of_eq items hscript
      · rw [sorted, sorted, named_of_ne items htemplate, named_of_eq items hscript,
          named_of_ne items hstyle, others_of_mem items (by simp [hscript]), hheld]
        rfl
    · refine ⟨total_of_ne items component.template htemplate,
        total_of_ne items component.script hscript, ?_⟩
      rw [sorted, sorted, named_of_ne items htemplate, named_of_ne items hscript,
        named_of_eq items hstyle, others_of_mem items (by simp [hstyle]), List.append_assoc]
      rfl
    · refine ⟨total_of_ne items component.template htemplate,
        total_of_ne items component.script hscript, ?_⟩
      rw [sorted, sorted, named_of_ne items htemplate, named_of_ne items hscript,
        named_of_ne items hstyle, others_of_not_mem items (by simp_all), List.append_assoc]
      rfl

/-- What becomes of items that are added one by one: they are sorted, unless there are two templates
or two scripts. -/
theorem foldlM_add_spec (component : Component) (items : List Item) :
    match items.foldlM add component with
    | .ok result => total "template" component.template items ≤ 1 ∧
        total "script" component.script items ≤ 1 ∧ result = sorted component items
    | .error fault => ∃ name span, fault = .duplicate name span ∧
        (name = ("template" : Text) ∧ 1 < total "template" component.template items ∨
          name = ("script" : Text) ∧ 1 < total "script" component.script items) := by
  induction items generalizing component with
  | nil =>
    have hheld : ∀ held : Option Block, held.toList.length ≤ 1 := by
      intro held
      cases held <;> simp
    simp [pure, Except.pure, total, sorted, named, others, hheld]
  | cons item items ih =>
    have hadd := add_spec component item items
    rw [List.foldlM_cons]
    cases hnext : component.add item with
    | error fault =>
      rw [hnext] at hadd
      exact hadd
    | ok next =>
      rw [hnext] at hadd
      obtain ⟨htemplate, hscript, hsorted⟩ := hadd
      have hrest := ih next
      rw [htemplate, hscript, hsorted] at hrest
      exact hrest

/-! ### Printing and reading -/

theorem named_unplaced (name : Text) (items : List Item) :
    named name (items.map Item.unplaced) = (named name items).map Block.unplaced := by
  induction items with
  | nil => rfl
  | cons item items ih =>
    cases item with
    | comment c => exact ih
    | block b =>
      rw [List.map_cons, Item.unplaced]
      by_cases hname : b.name = name
      · rw [named_of_eq items hname, named_of_eq _ (b := b.unplaced) hname, ih, List.map_cons]
      · rw [named_of_ne items hname, named_of_ne _ (b := b.unplaced) hname, ih]

theorem others_unplaced (items : List Item) :
    others (items.map Item.unplaced) = (others items).map Block.unplaced := by
  induction items with
  | nil => rfl
  | cons item items ih =>
    cases item with
    | comment c => exact ih
    | block b =>
      rw [List.map_cons, Item.unplaced]
      by_cases hname : b.name ∈ (["template", "script", "style"] : List Text)
      · rw [others_of_mem items hname, others_of_mem _ (b := b.unplaced) hname, ih]
      · rw [others_of_not_mem items hname, others_of_not_mem _ (b := b.unplaced) hname, ih,
          List.map_cons]

theorem comments_unplaced (items : List Item) :
    (items.map Item.unplaced).filterMap Item.comment? =
      (items.filterMap Item.comment?).map Comment.unplaced := by
  rw [List.filterMap_map, List.map_filterMap]
  congr 1
  funext item
  cases item <;> rfl

/-- Sorting does not look at where items stand. -/
theorem sorted_unplaced (items : List Item) :
    (sorted empty items).unplaced = sorted empty (items.map Item.unplaced) := by
  simp only [sorted, unplaced, named_unplaced, others_unplaced, comments_unplaced, empty,
    Option.none_or, List.nil_append, List.head?_map]

end Component

/-- What a block says of itself in its attributes, whose names count up to case: its language is the
value of the first `lang`, and it is scoped if there is a `scoped`. -/
structure Block.Described (b : Block) : Prop where
  lang : ∀ before a after, b.attributes = before ++ a :: after →
    (∀ d ∈ before, Text.lower d.key ≠ "lang") → Text.lower a.key = "lang" → b.lang? = a.value
  noLang : (∀ a ∈ b.attributes, Text.lower a.key ≠ "lang") → b.lang? = none
  isScoped_iff : b.isScoped = true ↔ ∃ a ∈ b.attributes, Text.lower a.key = "scoped"

theorem Block.described (b : Block) : b.Described where
  lang := by
    intro before a after hparts hbefore ha
    have hfind : b.find? "lang" = some a :=
      List.find?_eq_some_iff_append.2 ⟨beq_iff_eq.2 ha, before, after, hparts,
        fun d hd => bne_iff_ne.2 (hbefore d hd)⟩
    rw [Block.lang?, Block.attribute?, hfind]
    rfl
  noLang := by
    intro hnone
    have hfind : b.find? "lang" = none :=
      List.find?_eq_none.2 fun a ha => by
        rw [Text.sameIgnoringCase, beq_iff_eq]
        exact hnone a ha
    rw [Block.lang?, Block.attribute?, hfind]
    rfl
  isScoped_iff := by
    rw [Block.isScoped, Block.hasAttribute, Block.find?, List.find?_isSome]
    simp only [Text.sameIgnoringCase, beq_iff_eq]
    rfl

/-- A block that can be read back: its content holds no comment and nothing like a tag of its own
name, in small or capital letters. -/
structure Block.Printable (b : Block) : Prop extends b.Named where
  comment : ¬ ("<!--" : Text) <:+: b.content
  closing : ¬ Text.lower ("</" ++ b.name) <:+: Text.lower b.content
  opening : ¬ Text.lower ("<" ++ b.name) <:+: Text.lower b.content

theorem Block.Printable.closed {b : Block} (h : b.Printable) : b.Closed := by
  have hname : '<' ∉ b.name := fun hmem =>
    absurd (Cursor.isTagChar_of_isBlockName h.name '<' hmem) (by decide)
  exact fun rest => Body.length_append_of_clear hname h.comment h.closing h.opening rest

namespace Component

/-- An item that can be read back: a comment that does not end early, or such a block. -/
def Item.Printable : Item → Prop
  | .comment c => ¬ ("-->" : Text) <:+: c.content
  | .block b => b.Printable

theorem Item.Printable.readable {item : Item} (h : item.Printable) : item.Readable := by
  cases item with
  | comment c => exact h
  | block b => exact ⟨h.toNamed, h.closed⟩

/-- All blocks of a component. -/
def blocks (component : Component) : List Block :=
  component.template.toList ++ component.script.toList ++ component.styles ++ component.custom

/-- Reading undoes printing.  With at most one template and one script, the component holds the
printed blocks and comments, each kind in its order; otherwise the second template or script is the
fault. -/
theorem read_printed {items : List Item} {source : Text} (hitems : ∀ item ∈ items, item.Printable)
    (h : Prints items source) :
    ((named "template" items).length ≤ 1 → (named "script" items).length ≤ 1 →
      ∃ component, read source = .ok component ∧
        component.unplaced = (sorted empty items).unplaced ∧
        ∀ b ∈ component.blocks, b.Described) ∧
    (1 < (named "template" items).length ∨ 1 < (named "script" items).length →
      ∃ name span, read source = .error (.duplicate name span) ∧
        (name = ("template" : Text) ∨ name = ("script" : Text)) ∧
        1 < (named name items).length) := by
  have hreadable : ∀ item ∈ items, item.Readable := fun item hitem => (hitems item hitem).readable
  obtain ⟨items', halike, hread⟩ := readFrom_printed h hreadable empty 0
  have htotal : ∀ name, total name none items' = (named name items).length := by
    intro name
    rw [total, Option.toList_none, List.nil_append, ← List.length_map (f := Block.unplaced),
      ← named_unplaced, halike, named_unplaced, List.length_map]
  have hsource : read source = items'.foldlM add empty := hread
  have hspec := foldlM_add_spec empty items'
  rw [← hsource] at hspec
  cases hresult : read source with
  | ok component =>
    rw [hresult] at hspec
    obtain ⟨htemplate, hscript, hcomponent⟩ := hspec
    refine ⟨fun _ _ => ⟨component, rfl, ?_, fun b _ => b.described⟩, fun htwo => ?_⟩
    · rw [hcomponent, sorted_unplaced, halike, sorted_unplaced]
    · have htemplate' := (htotal "template").symm.trans_le htemplate
      have hscript' := (htotal "script").symm.trans_le hscript
      omega
  | error fault =>
    rw [hresult] at hspec
    obtain ⟨name, span, rfl, hname⟩ := hspec
    have hmore : (name = ("template" : Text) ∨ name = ("script" : Text)) ∧
        1 < (named name items).length := by
      rcases hname with ⟨rfl, hmore⟩ | ⟨rfl, hmore⟩
      · exact ⟨.inl rfl, hmore.trans_eq (htotal "template")⟩
      · exact ⟨.inr rfl, hmore.trans_eq (htotal "script")⟩
    refine ⟨fun htemplate hscript => ?_, fun _ => ⟨name, span, rfl, hmore⟩⟩
    rcases hmore with ⟨rfl | rfl, hmore⟩ <;> omega

/-- A script that holds tags of other names. -/
def sampleScript : Block :=
  ⟨"script", [⟨"LANG", some "ts", .empty 0⟩], "a </b> '<p", .empty 0, .empty 0⟩

/-- A style with a value that holds quotes. -/
def sampleStyle : Block :=
  ⟨"style", [⟨"Scoped", none, .empty 0⟩, ⟨"title", some "a \"b\"", .empty 0⟩], "p > q", .empty 0,
    .empty 0⟩

def sampleItems : List Item :=
  [.comment ⟨" <script> --", .empty 0⟩, .block sampleScript, .block sampleStyle]

theorem sampleItems_printable : ∀ item ∈ sampleItems, item.Printable := by
  have hscript : sampleScript.Printable :=
    ⟨⟨by decide, by decide, by decide⟩, by decide, by decide, by decide⟩
  have hstyle : sampleStyle.Printable :=
    ⟨⟨by decide, by decide, by decide⟩, by decide, by decide, by decide⟩
  have hcomment : ¬ ("-->" : Text) <:+: " <script> --" := by decide
  simp only [sampleItems, List.mem_cons, List.not_mem_nil, or_false]
  rintro item (rfl | rfl | rfl)
  · exact hcomment
  · exact hscript
  · exact hstyle

theorem prints_sampleItems :
    Prints sampleItems ("<!-- <script> ---->\n<script LANG='ts'>a </b> '<p</script>" ++
      "<style Scoped title='a \"b\"'>p > q</style> ") := by
  have hscript : Attribute.Written sampleScript.attributes
      (' ' :: ("LANG" ++ '=' :: '\'' :: ("ts" ++ '\'' :: []))) := .valued rfl (by decide) .nil
  have hstyle : Attribute.Written sampleStyle.attributes
      (' ' :: ("Scoped" ++ ' ' :: ("title" ++ '=' :: '\'' :: ("a \"b\"" ++ '\'' :: [])))) :=
    .flag (.valued rfl (by decide) .nil)
  have hprints : Prints sampleItems _ :=
    @Prints.comment [] _ _ _ _ rfl (@Prints.block sampleScript ['\n'] _ _ _ rfl hscript
      (@Prints.block sampleStyle [] _ _ _ rfl hstyle (@Prints.nil [' '] rfl)))
  exact Eq.mp (congrArg (Prints sampleItems) (by decide +kernel)) hprints

theorem read_printed_sample : ∃ component, read
      ("<!-- <script> ---->\n<script LANG='ts'>a </b> '<p</script>" ++
        "<style Scoped title='a \"b\"'>p > q</style> ") = .ok component ∧
      component.unplaced = (sorted empty sampleItems).unplaced ∧
      ∀ b ∈ component.blocks, b.Described :=
  (read_printed sampleItems_printable prints_sampleItems).1 (by decide) (by decide)

end Component

end Wxml
