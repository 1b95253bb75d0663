import Suture.Driver.Markdown
import Suture.Engine.Reread

/-!
# Markdown blocks read, printed and read again

Reading keeps every line that is not blank and the order of the lines. The blocks that were
read are printed and read again as they are when they are `Printable`.
-/

namespace Suture.Driver.Markdown
set_option autoImplicit false
open Engine Foundation

/-! ### Lines -/

theorem trimStart_of_solid {line : String} {c : Char} (h : line.toList.head? = some c)
    (hc : isWhiteSpace c = false) : trimStart line = line.toList := by
  unfold trimStart
  cases hl : line.toList with
  | nil => rfl
  | cons d rest =>
    rw [hl, List.head?_cons, Option.some.injEq] at h
    rw [List.dropWhile_cons_of_neg]
    rw [h, hc]
    exact Bool.false_ne_true

theorem isBlank_of_trimStart {line : String} {c : Char} {rest : List Char}
    (h : trimStart line = c :: rest) : isBlank line = false := by
  unfold trimStart at h
  have hc := List.head_dropWhile_not isWhiteSpace (l := line.toList) (h ▸ List.cons_ne_nil c rest)
  simp only [h, List.head_cons] at hc
  unfold isBlank trimBy
  rw [h]
  have := rdropWhile_append_of_solid (l := []) hc rest
  rw [List.nil_append, List.nil_append] at this
  rw [this]
  rfl

theorem isBlank_of_isFence {line : String} (h : isFence line = true) : isBlank line = false := by
  unfold isFence startsWith at h
  obtain ⟨rest, hrest⟩ := List.isPrefixOf_iff_prefix.mp h
  exact isBlank_of_trimStart hrest.symm

theorem isBlank_of_isHeadingLine {line : String} (h : isHeadingLine line = true) :
    isBlank line = false := by
  have hhead : line.toList.head? = some '#' := by simpa [isHeadingLine] using h
  have htrim := trimStart_of_solid hhead rfl
  cases hl : line.toList with
  | nil => rw [hl] at hhead; cases hhead
  | cons c rest => exact isBlank_of_trimStart (htrim.trans hl)

theorem not_isFence_of_isHeadingLine {line : String} (h : isHeadingLine line = true) :
    isFence line = false := by
  have hhead : line.toList.head? = some '#' := by simpa [isHeadingLine] using h
  have htrim := trimStart_of_solid hhead rfl
  unfold isFence startsWith
  rw [htrim]
  cases hl : line.toList with
  | nil => rfl
  | cons c rest =>
    rw [hl, List.head?_cons, Option.some.injEq] at hhead
    rw [hhead]
    rfl

theorem detectBlockType_eq_heading {line : String} :
    detectBlockType line = .heading ↔ isHeadingLine line = true := by
  unfold detectBlockType
  split
  · rename_i h
    exact iff_of_true rfl h
  · rename_i h
    refine iff_of_false ?_ h
    split
    · nofun
    · split
      · nofun
      · split <;> nofun

theorem detectBlockType_ne_codeBlock {line : String} (h : isFence line = false) :
    detectBlockType line ≠ .codeBlock := by
  unfold detectBlockType
  rw [h]
  split
  · nofun
  · split
    · contradiction
    · split
      · nofun
      · split <;> nofun

/-! ### What reading leaves -/

/-- The heading that the next block would be under. -/
def lastHeading (blocks : List Block) : Option String := blocks.getLast?.bind Block.heading

structure IsText (bt : BlockType) (line : String) : Prop where
  noFence : isFence line = false
  notBlank : isBlank line = false
  detected : detectBlockType line = bt

/-- A block as it is read under a heading; the flag says that it is a code block without an end. -/
inductive Formed (before : Option String) : Bool → Block → Prop where
  | heading {line : String} (h : isHeadingLine line = true) :
    Formed before false ⟨.heading, some (headingText line), [line]⟩
  | text {bt : BlockType} {lines : List String} (hbt : bt ≠ .heading) (hne : lines ≠ [])
    (h : ∀ line ∈ lines, IsText bt line) : Formed before false ⟨bt, before, lines⟩
  | closed {first last : String} {lines : List String} (hfirst : isFence first = true)
    (hlines : ∀ line ∈ lines, isFence line = false) (hlast : isFence last = true) :
    Formed before false ⟨.codeBlock, before, first :: lines ++ [last]⟩
  | unclosed {first : String} {lines : List String} (hfirst : isFence first = true)
    (hlines : ∀ line ∈ lines, isFence line = false) :
    Formed before true ⟨.codeBlock, before, first :: lines⟩

/-- Blocks as they are read one after the other. -/
inductive Follows : Bool → List Block → Prop where
  | nil : Follows false []
  | snoc {blocks : List Block} {block : Block} {isOpen : Bool} (h : Follows false blocks)
    (hblock : Formed (lastHeading blocks) isOpen block) : Follows isOpen (blocks ++ [block])

structure Reading.Ok (s : Reading) : Prop where
  blocks : Follows false s.blocks
  idle : s.currentBlock = none → s.inCodeBlock = false ∧ s.currentHeading = lastHeading s.blocks
  busy : ∀ block, s.currentBlock = some block →
    Formed (lastHeading s.blocks) s.inCodeBlock block ∧ s.currentHeading = block.heading

def linesOf (blocks : List Block) : List String := blocks.flatMap Block.lines

/-- The lines that were kept so far. -/
def Reading.lines (s : Reading) : List String := linesOf (s.blocks ++ s.currentBlock.toList)

variable {s : Reading} {line : String}

@[simp] theorem linesOf_append (a b : List Block) : linesOf (a ++ b) = linesOf a ++ linesOf b :=
  List.flatMap_append

@[simp] theorem linesOf_singleton (block : Block) : linesOf [block] = block.lines :=
  List.flatMap_singleton Block.lines block

@[simp] theorem lastHeading_concat (blocks : List Block) (block : Block) :
    lastHeading (blocks ++ [block]) = block.heading := by
  unfold lastHeading
  rw [List.getLast?_concat]
  rfl

theorem Reading.lines_flush (s : Reading) : linesOf s.flush.blocks = s.lines := rfl

theorem Reading.Ok.flush (hs : s.Ok) (hcode : s.inCodeBlock = false) :
    Follows false s.flush.blocks ∧ s.currentHeading = lastHeading s.flush.blocks := by
  unfold Reading.flush
  cases hcurrent : s.currentBlock with
  | none =>
    rw [Option.toList_none, List.append_nil]
    exact ⟨hs.blocks, (hs.idle hcurrent).2⟩
  | some block =>
    obtain ⟨hblock, hheading⟩ := hs.busy block hcurrent
    rw [hcode] at hblock
    rw [Option.toList_some]
    exact ⟨hs.blocks.snoc hblock, hheading.trans (lastHeading_concat ..).symm⟩

/-- A new block after what was read. -/
theorem Reading.Ok.start (hs : s.Ok) (hcode : s.inCodeBlock = false) {isOpen : Bool}
    {block : Block} (hblock : Formed s.currentHeading isOpen block) :
    Reading.Ok ⟨s.flush.blocks, some block, block.heading, isOpen⟩ where
  blocks := (hs.flush hcode).1
  idle := nofun
  busy block' h := by
    obtain rfl := Option.some.inj h
    rw [(hs.flush hcode).2] at hblock
    exact ⟨hblock, rfl⟩

theorem Formed.lines_push {before : Option String} {block : Block} (h : Formed before true block)
    (line : String) : Formed before (!isFence line) (block.push line) := by
  cases h with
  | unclosed hfirst hlines =>
    cases hline : isFence line with
    | true => exact .closed hfirst hlines hline
    | false =>
      refine @Formed.unclosed _ _ (_ ++ [line]) hfirst fun l hl => ?_
      rcases List.mem_append.mp hl with hl | hl
      · exact hlines l hl
      · rwa [List.mem_singleton.mp hl]

theorem Formed.heading_eq {before : Option String} {block : Block} {isOpen : Bool}
    (h : Formed before isOpen block) (hcode : block.blockType ≠ .heading) :
    block.heading = before := by
  cases h with
  | heading _ => exact absurd rfl hcode
  | _ => rfl

theorem Formed.text_push {before : Option String} {block : Block} (h : Formed before false block)
    (hline : IsText block.blockType line) (hbt : block.blockType ≠ .heading) :
    Formed before false (block.push line) := by
  cases h with
  | heading _ => exact absurd rfl hbt
  | text hbt' _ hlines =>
    refine .text hbt' (List.append_ne_nil_of_right_ne_nil _ (List.cons_ne_nil _ _)) fun l hl => ?_
    rcases List.mem_append.mp hl with hl | hl
    · exact hlines l hl
    · rwa [List.mem_singleton.mp hl]
  | closed _ _ _ => exact absurd hline.detected (detectBlockType_ne_codeBlock hline.noFence)

theorem Reading.line_inCode (hs : s.Ok) (hcode : s.inCodeBlock = true) (line : String) :
    (s.line line).Ok ∧ (s.line line).lines = s.lines ++ [line] := by
  unfold Reading.line
  rw [if_pos hcode]
  cases hcurrent : s.currentBlock with
  | none => rw [(hs.idle hcurrent).1] at hcode; cases hcode
  | some block =>
    obtain ⟨hblock, hheading⟩ := hs.busy block hcurrent
    rw [hcode] at hblock
    have hpush := hblock.lines_push line
    have hlines : linesOf (s.blocks ++ [block.push line]) = s.lines ++ [line] := by
      unfold Reading.lines
      rw [hcurrent, Option.toList_some, linesOf_append, linesOf_append, linesOf_singleton,
        linesOf_singleton, List.append_assoc]
      rfl
    cases hfence : isFence line with
    | true =>
      rw [hfence] at hpush
      refine ⟨⟨hs.blocks.snoc hpush, fun _ => ⟨rfl, ?_⟩, nofun⟩, ?_⟩
      · exact hheading.trans (lastHeading_concat _ (block.push line)).symm
      · rw [if_pos rfl, ← hlines]
        exact congrArg linesOf (List.append_nil _)
    | false =>
      rw [hfence] at hpush
      rw [if_neg Bool.false_ne_true]
      refine ⟨⟨hs.blocks, nofun, fun block' h => ?_⟩, hlines⟩
      obtain rfl := Option.some.inj h
      exact ⟨hcode ▸ hpush, hheading⟩

theorem Reading.lines_start (s : Reading) {block : Block} (hblock : block.lines = [line])
    (heading : Option String) (isOpen : Bool) :
    Reading.lines ⟨s.flush.blocks, some block, heading, isOpen⟩ = s.lines ++ [line] := by
  rw [← hblock, ← linesOf_singleton block, ← s.lines_flush, ← linesOf_append]
  rfl

/-- One line more: it is kept, or it is blank and ends the block. -/
theorem Reading.line_ok (hs : s.Ok) (line : String) : (s.line line).Ok ∧
    ((s.line line).lines = s.lines ++ [line] ∨
      isBlank line = true ∧ (s.line line).lines = s.lines) := by
  by_cases hcode : s.inCodeBlock = true
  · exact ⟨(line_inCode hs hcode line).1, .inl (line_inCode hs hcode line).2⟩
  unfold Reading.line
  rw [if_neg hcode]
  rw [Bool.not_eq_true] at hcode
  split
  · rename_i hfence
    exact ⟨hs.start hcode (@Formed.unclosed _ _ [] hfence (fun _ h => nomatch h)),
      .inl (s.lines_start rfl _ _)⟩
  rename_i hfence
  rw [Bool.not_eq_true] at hfence
  split
  · rename_i hblank
    refine ⟨⟨(hs.flush hcode).1, fun _ => ⟨hcode, (hs.flush hcode).2⟩, nofun⟩,
      .inr ⟨hblank, ?_⟩⟩
    rw [← s.lines_flush]
    exact congrArg linesOf (List.append_nil _)
  rename_i hblank
  rw [Bool.not_eq_true] at hblank
  have htext : IsText (detectBlockType line) line := ⟨hfence, hblank, rfl⟩
  dsimp only
  split
  · rename_i hheading
    have hnew := hs.start hcode (.heading (detectBlockType_eq_heading.mp hheading))
    exact ⟨hcode ▸ hnew, .inl (s.lines_start rfl _ _)⟩
  rename_i hheading
  have hnew := hs.start hcode (.text hheading (List.cons_ne_nil line []) fun l hl => by
    rwa [List.mem_singleton.mp hl])
  cases hcurrent : s.currentBlock with
  | none =>
    have hflush : s.blocks = s.flush.blocks := by
      unfold Reading.flush
      rw [hcurrent]
      exact (List.append_nil _).symm
    dsimp only
    rw [hcode, hflush]
    exact ⟨hnew, .inl (s.lines_start rfl _ _)⟩
  | some block =>
    dsimp only
    split
    · rename_i hbt
      obtain ⟨hblock, hbefore⟩ := hs.busy block hcurrent
      rw [hcode] at hblock
      refine ⟨⟨hs.blocks, nofun, fun block' h => ?_⟩, .inl ?_⟩
      · obtain rfl := Option.some.inj h
        exact ⟨hcode ▸ hblock.text_push (hbt ▸ htext) (hbt ▸ hheading), hbefore⟩
      · unfold Reading.lines
        rw [hcurrent, Option.toList_some, Option.toList_some, linesOf_append, linesOf_append,
          linesOf_singleton, linesOf_singleton, List.append_assoc]
        rfl
    · exact ⟨hcode ▸ hnew, .inl (s.lines_start rfl _ _)⟩

/-! ### The lines of the blocks -/

/-- The lines that are not blank, without carriage returns at their ends. -/
def shown (lines : List String) : List (List Char) :=
  (lines.filter fun line => !isBlank line).map fun line => line.toList.rdropWhile fun c => c == '\r'

@[simp] theorem shown_append (a b : List String) : shown (a ++ b) = shown a ++ shown b := by
  unfold shown
  rw [List.filter_append, List.map_append]

theorem shown_blank (h : isBlank line = true) : shown [line] = [] := by
  unfold shown
  simp [h]

theorem foldl_line_ok (lines : List String) :
    (lines.foldl Reading.line ⟨[], none, none, false⟩).Ok ∧
      (lines.foldl Reading.line ⟨[], none, none, false⟩).lines.Sublist lines ∧
      shown (lines.foldl Reading.line ⟨[], none, none, false⟩).lines = shown lines := by
  induction lines using List.reverseRecOn with
  | nil => exact ⟨⟨.nil, fun _ => ⟨rfl, rfl⟩, nofun⟩, .refl _, rfl⟩
  | append_singleton lines line ih =>
    obtain ⟨hok, hsub, hshown⟩ := ih
    rw [List.foldl_concat]
    obtain ⟨hok', hlines⟩ := Reading.line_ok hok line
    refine ⟨hok', ?_⟩
    rcases hlines with hlines | ⟨hblank, hlines⟩
    · rw [hlines, shown_append, shown_append, hshown]
      exact ⟨hsub.append_right [line], rfl⟩
    · rw [hlines, shown_append, shown_blank hblank, List.append_nil]
      exact ⟨hsub.trans (List.sublist_append_left ..), hshown⟩

theorem Reading.Ok.follows (hs : s.Ok) : Follows s.inCodeBlock s.flush.blocks := by
  unfold Reading.flush
  cases hcurrent : s.currentBlock with
  | none =>
    rw [(hs.idle hcurrent).1, Option.toList_none, List.append_nil]
    exact hs.blocks
  | some block => exact hs.blocks.snoc (hs.busy block hcurrent).1

theorem readBlocks_follows (lines : List String) : ∃ isOpen, Follows isOpen (readBlocks lines) :=
  ⟨_, (foldl_line_ok lines).1.follows⟩

theorem linesOf_readBlocks_sublist (lines : List String) :
    (linesOf (readBlocks lines)).Sublist lines :=
  (foldl_line_ok lines).2.1

theorem shown_readBlocks (lines : List String) : shown (linesOf (readBlocks lines)) = shown lines :=
  (foldl_line_ok lines).2.2

/-! ### Reading the lines of blocks again -/

/-- The lines of the blocks with an empty line between two. -/
def spaced : List Block → List String
  | [] => []
  | [block] => block.lines
  | block :: next :: rest => block.lines ++ "" :: spaced (next :: rest)

theorem spaced_concat {blocks : List Block} (h : blocks ≠ []) (block : Block) :
    spaced (blocks ++ [block]) = spaced blocks ++ "" :: block.lines := by
  induction blocks with
  | nil => exact absurd rfl h
  | cons first blocks ih =>
    cases blocks with
    | nil => rfl
    | cons next rest =>
      have hrest := ih (List.cons_ne_nil next rest)
      rw [List.cons_append, List.cons_append, spaced, spaced, ← List.cons_append, hrest,
        List.append_assoc]
      rfl

theorem shown_spaced (blocks : List Block) : shown (spaced blocks) = shown (linesOf blocks) := by
  induction blocks using List.reverseRecOn with
  | nil => rfl
  | append_singleton blocks block ih =>
    by_cases hne : blocks = []
    · subst hne
      rw [List.nil_append, linesOf_singleton]
      rfl
    · have hblank : shown ("" :: block.lines) = shown block.lines := by
        rw [← List.singleton_append, shown_append, shown_blank rfl, List.nil_append]
      rw [spaced_concat hne, shown_append, hblank, ih, linesOf_append, linesOf_singleton,
        shown_append]

theorem foldl_line_text {bt : BlockType} (hbt : bt ≠ .heading) {lines : List String}
    (h : ∀ line ∈ lines, IsText bt line) (blocks : List Block) (before heading : Option String)
    (read : List String) :
    lines.foldl Reading.line ⟨blocks, some ⟨bt, before, read⟩, heading, false⟩ =
      ⟨blocks, some ⟨bt, before, read ++ lines⟩, heading, false⟩ := by
  induction lines generalizing read with
  | nil => rw [List.append_nil]; rfl
  | cons line lines ih =>
    obtain ⟨hfence, hblank, hdetect⟩ := h line (List.mem_cons_self ..)
    have hstep : Reading.line ⟨blocks, some ⟨bt, before, read⟩, heading, false⟩ line =
        ⟨blocks, some ⟨bt, before, read ++ [line]⟩, heading, false⟩ := by
      unfold Reading.line
      simp [hfence, hblank, hdetect, hbt, Block.push]
    rw [List.foldl_cons, hstep, ih fun l hl => h l (List.mem_cons_of_mem _ hl)]
    simp

theorem foldl_line_code {lines : List String} (h : ∀ line ∈ lines, isFence line = false)
    (blocks : List Block) (before heading : Option String) (read : List String) :
    lines.foldl Reading.line ⟨blocks, some ⟨.codeBlock, before, read⟩, heading, true⟩ =
      ⟨blocks, some ⟨.codeBlock, before, read ++ lines⟩, heading, true⟩ := by
  induction lines generalizing read with
  | nil => rw [List.append_nil]; rfl
  | cons line lines ih =>
    have hstep : Reading.line ⟨blocks, some ⟨.codeBlock, before, read⟩, heading, true⟩ line =
        ⟨blocks, some ⟨.codeBlock, before, read ++ [line]⟩, heading, true⟩ := by
      unfold Reading.line
      simp [h line (List.mem_cons_self ..), Block.push]
    rw [List.foldl_cons, hstep, ih fun l hl => h l (List.mem_cons_of_mem _ hl)]
    simp

theorem foldl_line_formed {before : Option String} {isOpen : Bool} {block : Block}
    (h : Formed before isOpen block) (blocks : List Block) :
    ∃ s, block.lines.foldl Reading.line ⟨blocks, none, before, false⟩ = s ∧
      s.flush = ⟨blocks ++ [block], none, block.heading, isOpen⟩ := by
  refine ⟨_, rfl, ?_⟩
  have hfirst : ∀ {first : String}, isFence first = true →
      Reading.line ⟨blocks, none, before, false⟩ first =
        ⟨blocks, some ⟨.codeBlock, before, [first]⟩, before, true⟩ := by
    intro first hfence
    unfold Reading.line
    simp [hfence, Reading.flush]
  cases h with
  | @heading line h =>
    have hstep : Reading.line ⟨blocks, none, before, false⟩ line =
        ⟨blocks, some ⟨.heading, some (headingText line), [line]⟩, some (headingText line), false⟩ := by
      unfold Reading.line
      simp [not_isFence_of_isHeadingLine h, isBlank_of_isHeadingLine h,
        detectBlockType_eq_heading.mpr h, Reading.flush]
    rw [List.foldl_cons, hstep]
    rfl
  | @text bt lines hbt hne h =>
    obtain ⟨line, lines, rfl⟩ := List.exists_cons_of_ne_nil hne
    obtain ⟨hfence, hblank, hdetect⟩ := h line (List.mem_cons_self ..)
    have hstep : Reading.line ⟨blocks, none, before, false⟩ line =
        ⟨blocks, some ⟨bt, before, [line]⟩, before, false⟩ := by
      unfold Reading.line
      simp [hfence, hblank, hdetect, hbt]
    rw [List.foldl_cons, hstep, foldl_line_text hbt fun l hl => h l (List.mem_cons_of_mem _ hl)]
    rfl
  | @closed first last lines hfence hlines hlast =>
    have hstep : Reading.line ⟨blocks, some ⟨.codeBlock, before, first :: lines⟩, before, true⟩ last =
        ⟨blocks ++ [⟨.codeBlock, before, first :: lines ++ [last]⟩], none, before, false⟩ := by
      unfold Reading.line
      simp [hlast, Reading.flush, Block.push]
    rw [List.cons_append, List.foldl_cons, hfirst hfence, List.foldl_concat, foldl_line_code hlines,
      List.singleton_append, hstep]
    simp [Reading.flush]
  | @unclosed first lines hfence hlines =>
    rw [List.foldl_cons, hfirst hfence, foldl_line_code hlines]
    rfl

theorem flush_foldl_spaced {isOpen : Bool} {blocks : List Block} (h : Follows isOpen blocks) :
    ((spaced blocks).foldl Reading.line ⟨[], none, none, false⟩).flush =
      ⟨blocks, none, lastHeading blocks, isOpen⟩ := by
  induction h with
  | nil => rfl
  | @snoc blocks block isOpen _ hblock ih =>
    obtain ⟨s, hs, hflush⟩ := foldl_line_formed hblock blocks
    rw [lastHeading_concat, ← hflush, ← hs]
    congr 1
    by_cases hne : blocks = []
    · subst hne
      rfl
    · -- the empty line ends the block before
      have hend : ∀ s : Reading, s.flush.inCodeBlock = false → s.line "" = s.flush := by
        intro s hcode
        have hcode : s.inCodeBlock = false := hcode
        unfold Reading.line
        rw [hcode]
        rfl
      rw [spaced_concat hne, List.foldl_append, List.foldl_cons, hend _ (by rw [ih]), ih]

theorem readBlocks_spaced {isOpen : Bool} {blocks : List Block} (h : Follows isOpen blocks) :
    readBlocks (spaced blocks) = blocks :=
  congrArg Reading.blocks (flush_foldl_spaced h)

/-! ### Printing -/

/-- Each block has lines, and no line has a newline in it. -/
def Lined (blocks : List Block) : Prop :=
  ∀ block ∈ blocks, block.lines ≠ [] ∧ ∀ line ∈ block.lines, '\n' ∉ line.toList

theorem Lined.spaced {blocks : List Block} (h : Lined blocks) :
    ∀ line ∈ spaced blocks, '\n' ∉ line.toList := by
  induction blocks using List.reverseRecOn with
  | nil => nofun
  | append_singleton blocks block ih =>
    have hblock := (h block (by simp)).2
    by_cases hne : blocks = []
    · subst hne
      exact hblock
    · intro line hline
      rw [spaced_concat hne, List.mem_append, List.mem_cons] at hline
      rcases hline with hline | rfl | hline
      · exact ih (fun b hb => h b (List.mem_append_left _ hb)) line hline
      · exact List.not_mem_nil
      · exact hblock line hline

theorem spaced_ne_nil {block : Block} (h : block.lines ≠ []) (blocks : List Block) :
    spaced (block :: blocks) ≠ [] := by
  cases blocks with
  | nil => exact h
  | cons _ _ => exact List.append_ne_nil_of_left_ne_nil h _

theorem joined_append {a b : List String} (ha : a ≠ []) (hb : b ≠ []) :
    Engine.joined (a ++ b) = Engine.joined a ++ '\n' :: Engine.joined b := by
  induction a with
  | nil => exact absurd rfl ha
  | cons line a ih =>
    by_cases hne : a = []
    · subst hne
      rw [List.singleton_append, joined_cons line hb, joined_singleton]
    · rw [List.cons_append, joined_cons line (List.append_ne_nil_of_left_ne_nil hne b), ih hne,
        joined_cons line hne, List.append_assoc, List.cons_append]

theorem toList_blocksToMarkdown {blocks : List Block} (h : Lined blocks) :
    (blocksToMarkdown blocks).toList = Engine.joined (spaced blocks) := by
  induction blocks with
  | nil => rfl
  | cons block blocks ih =>
    have hblock := (h block (List.mem_cons_self ..)).1
    cases blocks with
    | nil =>
      unfold blocksToMarkdown
      rw [List.map_singleton, String.intercalate_singleton]
      rfl
    | cons next rest =>
      have hrest := ih fun b hb => h b (List.mem_cons_of_mem _ hb)
      have hnext := spaced_ne_nil (h next (by simp)).1 rest
      unfold blocksToMarkdown at hrest ⊢
      rw [List.map_cons] at hrest
      rw [List.map_cons, List.map_cons, String.intercalate_cons_cons, String.toList_append,
        String.toList_append, hrest, spaced, joined_append hblock (List.cons_ne_nil _ _),
        joined_cons "" hnext]
      simp [Engine.joined]

theorem textLines_blocksToMarkdown {blocks : List Block} (h : Lined blocks) :
    textLines (blocksToMarkdown blocks) = reread (spaced blocks) := by
  rw [← textLines_intercalate h.spaced]
  exact congrArg textLines (String.toList_inj.mp (toList_blocksToMarkdown h))

theorem parseBlocks_lined (content : String) : Lined (parseBlocks content) := by
  intro block hblock
  constructor
  · obtain ⟨isOpen, hfollows⟩ := readBlocks_follows (textLines content)
    have hall : ∀ {isOpen : Bool} {blocks : List Block}, Follows isOpen blocks →
        ∀ b ∈ blocks, b.lines ≠ [] := by
      intro isOpen blocks h
      induction h with
      | nil => nofun
      | snoc _ hb ih =>
        intro b hmem
        rcases List.mem_append.mp hmem with hmem | hmem
        · exact ih b hmem
        · rw [List.mem_singleton.mp hmem]
          cases hb with
          | heading _ => exact List.cons_ne_nil _ _
          | text _ hne _ => exact hne
          | closed _ _ _ => exact List.cons_ne_nil _ _
          | unclosed _ _ => exact List.cons_ne_nil _ _
    exact hall hfollows block hblock
  · intro line hline
    refine @newline_notMem_of_mem_textLines _ content ?_
    exact (linesOf_readBlocks_sublist _).subset (List.mem_flatMap.mpr ⟨block, hblock, hline⟩)

/-! ### Printed and read again -/

theorem bareLine_eq_self (h : line.toList.getLast? ≠ some '\r') : bareLine line = line := if_neg h

theorem bareLine_of_return (h : line.toList.getLast? = some '\r') :
    line.toList = (bareLine line).toList ++ ['\r'] := by
  obtain ⟨init, hinit⟩ := List.getLast?_eq_some_iff.mp h
  unfold bareLine
  rw [if_pos h, String.toList_ofList, hinit, List.dropLast_concat]

theorem shown_bareLine (line : String) : shown [bareLine line] = shown [line] := by
  by_cases h : line.toList.getLast? = some '\r'
  · have hline := bareLine_of_return h
    have hblank : isBlank line = isBlank (bareLine line) := by
      unfold isBlank
      rw [hline, trimBy_concat_blank rfl]
    have hend : (line.toList.rdropWhile fun c => c == '\r') =
        (bareLine line).toList.rdropWhile fun c => c == '\r' := by
      rw [hline, List.rdropWhile_concat_pos _ _ _ rfl]
    unfold shown
    rw [List.filter_singleton, List.filter_singleton, hblank]
    cases isBlank (bareLine line) <;> simp [hend]
  · rw [bareLine_eq_self h]

theorem shown_reread (lines : List String) : shown (reread lines) = shown lines := by
  fun_induction reread lines with
  | case1 => rfl
  | case2 => exact (shown_blank rfl).symm
  | case3 line _ => rfl
  | case4 line next rest ih =>
    rw [← List.singleton_append, ← List.singleton_append (x := line), shown_append, shown_append,
      shown_bareLine, ih]

/-- The printed lines are read as they are: no line but the last ends in a carriage return, and
the last one is not empty. -/
structure Printable (blocks : List Block) : Prop where
  noReturn : ∀ line ∈ (spaced blocks).dropLast, line.toList.getLast? ≠ some '\r'
  lastLine : (spaced blocks).getLast? ≠ some ""

def size (lines : List String) : Nat := (lines.map fun line => line.toList.length).sum

theorem size_cons (line : String) (lines : List String) :
    size (line :: lines) = line.toList.length + size lines := rfl

theorem size_le_of_sublist {a b : List String} (h : a.Sublist b) : size a ≤ size b := by
  induction h with
  | slnil => exact Nat.le_refl _
  | cons line _ ih =>
    rw [size_cons]
    omega
  | cons_cons line _ ih =>
    rw [size_cons, size_cons]
    omega

/-- What a carriage return adds is lost. -/
theorem size_reread (lines : List String) : size (reread lines) ≤ size lines ∧
    (size (reread lines) = size lines →
      ∀ line ∈ lines.dropLast, line.toList.getLast? ≠ some '\r') := by
  fun_induction reread lines with
  | case1 => exact ⟨Nat.le_refl _, nofun⟩
  | case2 => exact ⟨Nat.zero_le _, nofun⟩
  | case3 line _ => exact ⟨Nat.le_refl _, nofun⟩
  | case4 line next rest ih =>
    obtain ⟨hle, heq⟩ := ih
    rw [size_cons, size_cons, List.dropLast_cons_cons]
    by_cases h : line.toList.getLast? = some '\r'
    · have hlen := congrArg List.length (bareLine_of_return h)
      rw [List.length_append, List.length_singleton] at hlen
      refine ⟨by omega, fun hsize => ?_⟩
      omega
    · rw [bareLine_eq_self h]
      refine ⟨by omega, fun hsize l hl => ?_⟩
      rcases List.mem_cons.mp hl with rfl | hl
      · exact h
      · exact heq (by omega) l hl

theorem reread_of_noReturn {lines : List String}
    (h : ∀ line ∈ lines.dropLast, line.toList.getLast? ≠ some '\r') :
    reread lines = if lines.getLast? = some "" then lines.dropLast else lines := by
  fun_induction reread lines with
  | case1 => rfl
  | case2 => rfl
  | case3 line hne => simp [hne]
  | case4 line next rest ih =>
    rw [List.dropLast_cons_cons] at h
    rw [bareLine_eq_self (h line (List.mem_cons_self ..)),
      ih fun l hl => h l (List.mem_cons_of_mem _ hl), List.getLast?_cons_cons,
      List.dropLast_cons_cons]
    split <;> rfl

theorem size_spaced (blocks : List Block) : size (spaced blocks) = size (linesOf blocks) := by
  have happend : ∀ a b : List String, size (a ++ b) = size a + size b := by
    intro a b
    unfold size
    rw [List.map_append, List.sum_append]
  induction blocks using List.reverseRecOn with
  | nil => rfl
  | append_singleton blocks block ih =>
    by_cases hne : blocks = []
    · subst hne
      rw [List.nil_append, linesOf_singleton]
      rfl
    · rw [spaced_concat hne, linesOf_append, happend, happend, ih, size_cons, linesOf_singleton]
      simp

theorem Formed.last_not_blank {before : Option String} {block : Block}
    (h : Formed before false block) (hlast : block.lines.getLast? = some line) :
    isBlank line = false := by
  cases h with
  | heading h =>
    rw [← Option.some.inj hlast]
    exact isBlank_of_isHeadingLine h
  | text _ _ h => exact (h line (List.mem_of_getLast? hlast)).notBlank
  | closed _ _ h =>
    rw [List.getLast?_concat, Option.some.injEq] at hlast
    exact isBlank_of_isFence (hlast ▸ h)

theorem Follows.last_not_blank {blocks : List Block} (h : Follows false blocks)
    (hlast : (spaced blocks).getLast? = some line) : isBlank line = false := by
  cases h with
  | nil => cases hlast
  | @snoc blocks block _ _ hblock =>
    refine hblock.last_not_blank ?_
    by_cases hne : blocks = []
    · subst hne
      exact hlast
    · have hlines : block.lines ≠ [] := by
        cases hblock with
        | heading _ => exact List.cons_ne_nil _ _
        | text _ hne _ => exact hne
        | closed _ _ _ => exact List.cons_ne_nil _ _
      obtain ⟨l, lines, hl⟩ := List.exists_cons_of_ne_nil hlines
      rwa [spaced_concat hne, List.getLast?_append_of_ne_nil _ (List.cons_ne_nil _ _), hl,
        List.getLast?_cons_cons, ← hl] at hlast

/-- An empty line at the end of a code block without an end is a line of the block. -/
theorem spaced_last_empty {isOpen : Bool} {blocks : List Block} {lines : List String}
    (h : Follows isOpen blocks) (hlines : spaced blocks = lines ++ [""]) :
    readBlocks lines ≠ blocks := by
  intro hread
  obtain ⟨hok, -, -⟩ := foldl_line_ok lines
  have hflush := flush_foldl_spaced h
  rw [hlines, List.foldl_concat] at hflush
  generalize hs : lines.foldl Reading.line ⟨[], none, none, false⟩ = s at hok hflush
  have hblocks : s.flush.blocks = blocks := by rw [← hread, ← hs]; rfl
  cases hcode : s.inCodeBlock with
  | true =>
    have hline := (Reading.line_inCode hok hcode "").2
    rw [← Reading.lines_flush, ← s.lines_flush, hflush, hblocks] at hline
    exact List.append_ne_nil_of_right_ne_nil [] (List.cons_ne_nil "" [])
      (List.append_cancel_left ((List.append_nil _).trans hline)).symm
  | false =>
    have hend : s.line "" = s.flush := by
      unfold Reading.line
      rw [hcode]
      rfl
    rw [hend] at hflush
    obtain rfl : s.inCodeBlock = isOpen := congrArg Reading.inCodeBlock hflush
    rw [hcode] at h
    have hlast := @Follows.last_not_blank "" _ h (by rw [hlines, List.getLast?_concat])
    exact absurd hlast (by decide)

theorem parse_print_iff {isOpen : Bool} {blocks : List Block} (h : Follows isOpen blocks)
    (hlined : Lined blocks) : parseBlocks (blocksToMarkdown blocks) = blocks ↔ Printable blocks := by
  unfold parseBlocks
  rw [textLines_blocksToMarkdown hlined]
  constructor
  · intro hread
    have hsize := size_le_of_sublist (linesOf_readBlocks_sublist (reread (spaced blocks)))
    rw [hread, ← size_spaced] at hsize
    obtain ⟨hle, hreturn⟩ := size_reread (spaced blocks)
    have hreturn := hreturn (Nat.le_antisymm hle hsize)
    refine ⟨hreturn, fun hlast => ?_⟩
    obtain ⟨lines, hlines⟩ := List.getLast?_eq_some_iff.mp hlast
    rw [reread_of_noReturn hreturn, if_pos hlast, hlines, List.dropLast_concat] at hread
    exact spaced_last_empty h hlines hread
  · intro hprint
    rw [reread_of_noReturn hprint.noReturn, if_neg hprint.lastLine]
    exact readBlocks_spaced h

end Suture.Driver.Markdown
