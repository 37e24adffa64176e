import Kubeast.ChatStream.Manager

/-! An answer as it is meant: the tool blocks in the order of their calls, each with the text above
it and with its result once that has come, and the text below the last. The offsets the manager
keeps are read off it. -/
namespace ChatStream
open Json

section Search
variable {t s u v : Text} {i : ℕ}

attribute [local simp] indexOf lastIndexOf

theorem indexOf_le (h : indexOf t s = some i) : i + t.length ≤ s.length := by
  induction s generalizing i with
  | nil =>
    obtain ⟨rfl, rfl⟩ : t = [] ∧ 0 = i := by simpa using h
    exact Nat.le_refl 0
  | cons c s ih =>
    rw [indexOf] at h
    split at h
    · next hpre =>
      obtain rfl := Option.some.inj h
      rw [Nat.zero_add]
      exact (List.isPrefixOf_iff_prefix.mp hpre).length_le
    · obtain ⟨j, hj, rfl⟩ := Option.map_eq_some_iff.mp h
      have hle := ih hj
      rw [List.length_cons]
      omega

theorem exists_indexOf (h : t <:+: s) : ∃ i, indexOf t s = some i := by
  induction s with
  | nil =>
    obtain rfl := List.infix_nil.mp h
    exact ⟨0, rfl⟩
  | cons c s ih =>
    rw [indexOf]
    split
    · exact ⟨0, rfl⟩
    · next hpre =>
      rcases List.infix_cons_iff.mp h with hp | hmore
      · exact absurd (List.isPrefixOf_iff_prefix.mpr hp) hpre
      · obtain ⟨i, hi⟩ := ih hmore
        exact ⟨i + 1, by rw [hi]; rfl⟩

theorem indexOf_append (h : indexOf t s = some i) (v : Text) : indexOf t (s ++ v) = some i := by
  induction s generalizing i with
  | nil =>
    obtain ⟨ht, rfl⟩ : t = [] ∧ 0 = i := by simpa using h
    subst ht
    cases v <;> rfl
  | cons c s ih =>
    rw [indexOf] at h
    rw [List.cons_append, indexOf]
    by_cases hpre : t <+: c :: s
    · rw [if_pos (List.isPrefixOf_iff_prefix.mpr hpre)] at h
      have hin : t <+: c :: (s ++ v) := hpre.trans (List.prefix_append (c :: s) v)
      rw [if_pos (List.isPrefixOf_iff_prefix.mpr hin)]
      exact h
    · rw [if_neg (fun hp => hpre (List.isPrefixOf_iff_prefix.mp hp))] at h
      obtain ⟨j, hj, rfl⟩ := Option.map_eq_some_iff.mp h
      have hle := indexOf_le hj
      have hlen : t.length ≤ (c :: s).length := by
        rw [List.length_cons]
        omega
      have hout : ¬ t <+: c :: (s ++ v) := fun hp =>
        hpre (List.prefix_of_prefix_length_le hp (List.prefix_append (c :: s) v) hlen)
      rw [if_neg (fun hp => hout (List.isPrefixOf_iff_prefix.mp hp)), ih hj]
      rfl

theorem lastIndexOf_append (h : lastIndexOf t v = some i) (u : Text) :
    lastIndexOf t (u ++ v) = some (u.length + i) := by
  induction u with
  | nil => rw [List.nil_append, h, List.length_nil, Nat.zero_add]
  | cons c u ih =>
    rw [List.cons_append, lastIndexOf, ih, List.length_cons]
    dsimp only
    rw [Nat.add_right_comm]

theorem withToolResult_append (u v result : Text) :
    withToolResult (u ++ (resultPlaceholder ++ v)) u.length result = u ++ (result ++ v) := by
  unfold withToolResult
  have hpre : resultPlaceholder.isPrefixOf (resultPlaceholder ++ v) = true :=
    List.isPrefixOf_iff_prefix.mpr (List.prefix_append ..)
  rw [List.drop_left, if_pos hpre, List.take_left, ← List.drop_drop, List.drop_left, List.drop_left,
    List.append_assoc]

/-- The access lines go into the name of the block, whatever is around it. -/
theorem withToolAccess_append (h : indexOf summaryEnd s = some i) (u v line : Text) :
    withToolAccess (u ++ (s ++ v)) u.length line = u ++ (withToolAccess s 0 line ++ v) := by
  have hle := indexOf_le h
  unfold withToolAccess
  rw [List.drop_left, List.drop_zero, indexOf_append h v, h]
  dsimp only
  split
  · rfl
  · rw [Nat.zero_add, Nat.add_assoc, List.take_length_add_append, List.drop_length_add_append,
      List.take_append_of_le_length hle, List.drop_append_of_le_length hle]
    simp only [List.append_assoc]

theorem trimEnd_append (h : trimEnd u = u) (v : Text) : trimEnd (u ++ v) = u ++ trimEnd v := by
  induction v using List.reverseRecOn with
  | nil =>
    rw [List.append_nil, h]
    exact (List.append_nil u).symm
  | append_singleton v c ih =>
    rw [← List.append_assoc]
    by_cases hc : isSpace c = true
    · rw [trimEnd, List.rdropWhile_concat_pos _ _ _ hc, trimEnd, List.rdropWhile_concat_pos _ _ _ hc]
      exact ih
    · rw [trimEnd, List.rdropWhile_concat_neg _ _ _ hc, trimEnd, List.rdropWhile_concat_neg _ _ _ hc,
        List.append_assoc]

end Search

/-- A tool block: its call, and the code block and the access lines of its result. -/
structure Block where
  call : Call
  outcome : Option (Text × Text)

section Pieces
variable (page : Page)

def Block.name (b : Block) : Text := blockName (string page b.call.function)

/-- The name of the block, with the access lines of its result. -/
def Block.heading (b : Block) : Text :=
  match b.outcome with
  | some (_, access) => withToolAccess (b.name page) 0 access
  | none => b.name page

/-- What stands between the name and the result. -/
def Block.middle (b : Block) : Text := "\n".toList ++ argsSection page b.call.args ++ blockResults

def Block.result (b : Block) : Text :=
  match b.outcome with
  | some (codeBlock, _) => codeBlock
  | none => resultPlaceholder

def Block.text (b : Block) : Text :=
  b.heading page ++ (b.middle page ++ (b.result ++ blockEnd))

/-- Each block with the text above it, and the text below the last. -/
structure Talk where
  parts : List (Text × Block)
  last : Text

def partsText (parts : List (Text × Block)) : Text :=
  parts.flatMap fun (above, b) => above ++ b.text page

def Talk.text (t : Talk) : Text := partsText page t.parts ++ t.last

/-- The blocks as the manager keeps them, the first part beginning at `at`. -/
def placedFrom : ℕ → List (Text × Block) → List ToolBlock
  | _, [] => []
  | pos, (above, b) :: parts =>
    let start := pos + above.length
    ⟨start, if b.outcome.isNone then some (start + (b.heading page ++ b.middle page).length) else none⟩ ::
      placedFrom (start + (b.text page).length) parts

def Talk.say (t : Talk) (text : Text) : Talk := { t with last := t.last ++ text }

def Talk.call (t : Talk) (call : Call) : Talk :=
  let kept := trimEnd t.last
  let before := partsText page t.parts ++ kept
  let above := if before = [] then [] else kept ++ blockBreak before
  { parts := t.parts ++ [(above, ⟨call, none⟩)], last := gap }

/-- The result of a block; one that is there already stays. -/
def Block.answer (outcome : Text × Text) (b : Block) : Block :=
  { b with outcome := b.outcome <|> some outcome }

def Talk.answer (t : Talk) (n : ℕ) (outcome : Text × Text) : Talk :=
  { t with parts := t.parts.modify n fun (above, b) => (above, b.answer outcome) }

end Pieces

section Texts
variable {page : Page} {parts : List (Text × Block)}

theorem partsText_append (parts parts' : List (Text × Block)) :
    partsText page (parts ++ parts') = partsText page parts ++ partsText page parts' :=
  List.flatMap_append

theorem partsText_cons (above : Text) (b : Block) (parts : List (Text × Block)) :
    partsText page ((above, b) :: parts) = above ++ b.text page ++ partsText page parts :=
  List.flatMap_cons

theorem partsText_concat (parts : List (Text × Block)) (above : Text) (b : Block) :
    partsText page (parts ++ [(above, b)]) = partsText page parts ++ above ++ b.text page := by
  rw [partsText_append, partsText_cons, List.append_assoc, List.append_assoc]
  exact congrArg _ (congrArg _ (List.append_nil _))

theorem trimEnd_blockEnd (w : Text) : trimEnd (w ++ blockEnd) = w ++ blockEnd := by
  have hlast : blockEnd = blockEnd.dropLast ++ ['>'] := by decide
  rw [hlast, ← List.append_assoc]
  exact List.rdropWhile_concat_neg _ _ _ (by decide)

theorem trimEnd_text (b : Block) (w : Text) : trimEnd (w ++ b.text page) = w ++ b.text page := by
  have h := trimEnd_blockEnd (w ++ (b.heading page ++ (b.middle page ++ b.result)))
  simpa only [Block.text, List.append_assoc] using h

theorem trimEnd_partsText : trimEnd (partsText page parts) = partsText page parts := by
  cases parts using List.reverseRecOn with
  | nil => rfl
  | append_singleton parts p =>
    rw [partsText_concat]
    exact trimEnd_text p.2 _

theorem text_pos (page : Page) (b : Block) : 0 < (b.text page).length := by
  have hend : 0 < blockEnd.length := by decide
  simp only [Block.text, List.length_append]
  omega

/-- A new block is the text of a block without a result. -/
theorem buildToolCallBlock_eq (call : Call) :
    buildToolCallBlock page (string page call.function) call.args =
      Block.text page ⟨call, none⟩ ++ gap := by
  simp only [buildToolCallBlock, Block.text, Block.heading, Block.name, Block.middle, Block.result,
    List.append_assoc]

theorem lastIndexOf_placeholder (call : Call) :
    lastIndexOf resultPlaceholder (buildToolCallBlock page (string page call.function) call.args) =
      some (Block.heading page ⟨call, none⟩ ++ Block.middle page ⟨call, none⟩).length := by
  have hend : lastIndexOf resultPlaceholder (resultPlaceholder ++ (blockEnd ++ gap)) = some 0 := by
    decide
  have h := lastIndexOf_append hend (Block.heading page ⟨call, none⟩ ++ Block.middle page ⟨call, none⟩)
  rw [Nat.add_zero] at h
  rw [buildToolCallBlock_eq, ← h]
  simp only [Block.text, Block.result, List.append_assoc]

/-- A name holds the end of its summary, where the access lines go. -/
theorem exists_summaryEnd (page : Page) (b : Block) : ∃ i, indexOf summaryEnd (b.name page) = some i := by
  have hend : summaryEnd <:+ "</strong></summary>\n".toList := ⟨"</strong>".toList, rfl⟩
  have hname : b.name page = "<details>\n<summary>🔧 <strong>".toList ++
      string page b.call.function ++ "</strong></summary>\n".toList := rfl
  rw [hname]
  exact exists_indexOf (hend.trans (List.suffix_append _ _)).isInfix

end Texts

section Places
variable {page : Page} {parts : List (Text × Block)} {pos pos' : ℕ}

theorem placedFrom_append (parts parts' : List (Text × Block)) (pos : ℕ) :
    placedFrom page pos (parts ++ parts') =
      placedFrom page pos parts ++ placedFrom page (pos + (partsText page parts).length) parts' := by
  induction parts generalizing pos with
  | nil => rfl
  | cons p parts ih =>
    obtain ⟨above, b⟩ := p
    rw [List.cons_append, placedFrom, ih, placedFrom, List.cons_append, partsText_cons]
    simp only [List.length_append, Nat.add_assoc]

theorem length_placedFrom (parts : List (Text × Block)) (pos : ℕ) :
    (placedFrom page pos parts).length = parts.length := by
  induction parts generalizing pos with
  | nil => rfl
  | cons p parts ih =>
    obtain ⟨above, b⟩ := p
    rw [placedFrom, List.length_cons, ih, List.length_cons]

/-- Where the blocks of some parts start. -/
theorem start_bounds {x : ToolBlock} (h : x ∈ placedFrom page pos parts) :
    pos ≤ x.start ∧ x.start < pos + (partsText page parts).length := by
  induction parts generalizing pos with
  | nil => cases h
  | cons p parts ih =>
    obtain ⟨above, b⟩ := p
    have hpos := text_pos page b
    rw [partsText_cons, List.length_append, List.length_append]
    rcases List.mem_cons.mp h with rfl | hmore
    · dsimp only
      omega
    · have hbounds := ih hmore
      omega

/-- Blocks behind a place move by what went in there. -/
theorem placedFrom_moved {before after : ℕ} (h : pos' + before = pos + after)
    (parts : List (Text × Block)) :
    (placedFrom page pos parts).map (fun x =>
      ⟨x.start + after - before, x.resultAt.map fun r => r + after - before⟩) =
      placedFrom page pos' parts := by
  induction parts generalizing pos pos' with
  | nil => rfl
  | cons p parts ih =>
    obtain ⟨above, b⟩ := p
    have hnext : pos' + above.length + (b.text page).length + before =
        pos + above.length + (b.text page).length + after := by omega
    have hstart : pos + above.length + after - before = pos' + above.length := by omega
    rw [placedFrom, List.map_cons, ih hnext, placedFrom]
    dsimp only
    rw [hstart]
    congr 2
    split
    · rw [Option.map_some]
      congr 1
      omega
    · rfl

theorem mapIdx_split {α : Type*} {f : ℕ → α → α} {g : α → α} {xs ys : List α} {x : α}
    (hxs : ∀ (i : ℕ), ∀ y ∈ xs, i < xs.length → f i y = y)
    (hys : ∀ (i : ℕ), ∀ y ∈ ys, f (i + 1 + xs.length) y = g y) :
    (xs ++ x :: ys).mapIdx f = xs ++ f xs.length x :: ys.map g := by
  have hleft : xs.mapIdx f = xs := by
    rw [List.mapIdx_eq_iff]
    intro i
    cases hi : xs[i]? with
    | none => rfl
    | some y =>
      have hlt := (List.getElem?_eq_some_iff.mp hi).1
      rw [Option.map_some, hxs i y (List.mem_of_getElem? hi) hlt]
  have hright : (ys.mapIdx fun i => f (i + 1 + xs.length)) = ys.map g := by
    rw [List.mapIdx_eq_iff]
    intro i
    rw [List.getElem?_map]
    cases hi : ys[i]? with
    | none => rfl
    | some y => rw [Option.map_some, Option.map_some, hys i y (List.mem_of_getElem? hi)]
  rw [List.mapIdx_append, List.mapIdx_cons, hleft, hright, Nat.zero_add]

theorem exists_split {α : Type*} {l : List α} {n : ℕ} {x : α} (h : l[n]? = some x) :
    ∃ pre post, l = pre ++ x :: post ∧ pre.length = n := by
  obtain ⟨hlt, hget⟩ := List.getElem?_eq_some_iff.mp h
  refine ⟨l.take n, l.drop (n + 1), ?_, List.length_take_of_le hlt.le⟩
  rw [← hget, ← List.drop_eq_getElem_cons, List.take_append_drop]

theorem modify_split {α : Type*} (f : α → α) (pre post : List α) (x : α) :
    (pre ++ x :: post).modify pre.length f = pre ++ f x :: post := by
  induction pre with
  | nil => rfl
  | cons y pre ih =>
    rw [List.cons_append, List.length_cons, List.modify_succ_cons, ih, List.cons_append]

end Places

section Steps
variable {page : Page} {t : Talk}

/-- A call appends its block as the manager does. -/
theorem text_call (t : Talk) (call : Call) : (t.call page call).text page =
    appendToolBlock (t.text page) (buildToolCallBlock page (string page call.function) call.args) := by
  have hbefore : trimEnd (t.text page) = partsText page t.parts ++ trimEnd t.last :=
    trimEnd_append trimEnd_partsText t.last
  unfold appendToolBlock
  dsimp only
  rw [hbefore, buildToolCallBlock_eq, Talk.text, Talk.call]
  dsimp only
  rw [partsText_concat]
  split
  · next hnone =>
    obtain ⟨hparts, -⟩ := List.append_eq_nil_iff.mp hnone
    rw [hparts, List.nil_append, List.nil_append]
  · simp only [List.append_assoc]

theorem placed_call (page : Page) (t : Talk) (call : Call) :
    let block := buildToolCallBlock page (string page call.function) call.args
    let start := ((t.call page call).text page).length - block.length
    placedFrom page 0 (t.call page call).parts = placedFrom page 0 t.parts ++
      [⟨start, (lastIndexOf resultPlaceholder block).map (start + ·)⟩] := by
  have htext : ∀ above : Text,
      (Talk.text page ⟨t.parts ++ [(above, ⟨call, none⟩)], gap⟩).length -
        (buildToolCallBlock page (string page call.function) call.args).length =
      (partsText page t.parts).length + above.length := by
    intro above
    rw [Talk.text, partsText_concat, buildToolCallBlock_eq]
    simp only [List.length_append]
    omega
  dsimp only
  rw [lastIndexOf_placeholder, Talk.call]
  dsimp only
  rw [htext, placedFrom_append, placedFrom, placedFrom, Nat.zero_add]
  rfl

theorem answer_of_none {n : ℕ} (h : t.parts[n]? = none) (outcome : Text × Text) :
    t.answer n outcome = t := by
  obtain ⟨parts, last⟩ := t
  rw [Talk.answer, List.modify_eq_set_getElem?, h]
  rfl

theorem answer_of_answered {n : ℕ} {above : Text} {b : Block} (h : t.parts[n]? = some (above, b))
    (hb : b.outcome ≠ none) (outcome : Text × Text) : t.answer n outcome = t := by
  obtain ⟨parts, last⟩ := t
  obtain ⟨pre, post, rfl, rfl⟩ := exists_split h
  obtain ⟨call, given⟩ := b
  obtain ⟨given, rfl⟩ := Option.ne_none_iff_exists'.mp hb
  rw [Talk.answer, modify_split]
  rfl

/-- The two writes of a result make its block the block with that result. -/
theorem filled_eq (page : Page) (pre post : List (Text × Block)) (above : Text) (call : Call)
    (shown codeBlock access : Text) :
    withToolAccess
      (withToolResult (partsText page (pre ++ (above, ⟨call, none⟩) :: post) ++ shown)
        ((partsText page pre).length + above.length +
          (Block.heading page ⟨call, none⟩ ++ Block.middle page ⟨call, none⟩).length) codeBlock)
      ((partsText page pre).length + above.length) access =
      partsText page (pre ++ (above, ⟨call, some (codeBlock, access)⟩) :: post) ++ shown := by
  have hopen : partsText page (pre ++ (above, ⟨call, none⟩) :: post) ++ shown =
      (partsText page pre ++ above ++ (Block.heading page ⟨call, none⟩ ++ Block.middle page ⟨call, none⟩)) ++
        (resultPlaceholder ++ (blockEnd ++ (partsText page post ++ shown))) := by
    simp only [partsText_append, partsText_cons, Block.text, Block.result, List.append_assoc]
  have hresult : (partsText page pre ++ above ++
      (Block.heading page ⟨call, none⟩ ++ Block.middle page ⟨call, none⟩)) ++
        (codeBlock ++ (blockEnd ++ (partsText page post ++ shown))) =
      (partsText page pre ++ above) ++ (Block.name page ⟨call, none⟩ ++
        (Block.middle page ⟨call, none⟩ ++ (codeBlock ++ (blockEnd ++ (partsText page post ++ shown))))) := by
    simp only [Block.heading, List.append_assoc]
  obtain ⟨i, hi⟩ := exists_summaryEnd page ⟨call, none⟩
  rw [hopen, ← List.length_append, ← List.length_append, withToolResult_append, hresult,
    withToolAccess_append hi]
  simp only [partsText_append, partsText_cons, Block.text, Block.heading, Block.result, Block.middle,
    Block.name, List.append_assoc]

/-- What goes into one block is what the whole content grows by. -/
theorem length_answered (page : Page) (pre post : List (Text × Block)) (above : Text) (b b' : Block)
    (shown : Text) :
    (b'.text page).length + (partsText page (pre ++ (above, b) :: post) ++ shown).length =
      (b.text page).length + (partsText page (pre ++ (above, b') :: post) ++ shown).length := by
  simp only [partsText_append, partsText_cons, List.length_append]
  omega

/-- Behind the block of a result the blocks move; those before it stay. -/
theorem placed_answered (page : Page) (pre post : List (Text × Block)) (above : Text) (x : ToolBlock)
    {b b' : Block} {before after : ℕ} (hb' : b'.outcome.isNone = false)
    (hlength : (b'.text page).length + before = (b.text page).length + after) :
    ((placedFrom page 0 pre ++ x :: placedFrom page
        ((partsText page pre).length + above.length + (b.text page).length) post).mapIdx
      fun i other =>
        if i = pre.length then ⟨(partsText page pre).length + above.length, none⟩
        else if other.start < (partsText page pre).length + above.length then other
        else ⟨other.start + after - before, other.resultAt.map fun pos => pos + after - before⟩) =
      placedFrom page 0 (pre ++ (above, b') :: post) := by
  rw [mapIdx_split (g := fun x => ⟨x.start + after - before, x.resultAt.map fun r => r + after - before⟩)]
  · rw [length_placedFrom, if_pos rfl, placedFrom_append, placedFrom, hb', Nat.zero_add]
    have hmoved : (partsText page pre).length + above.length + (b'.text page).length + before =
        (partsText page pre).length + above.length + (b.text page).length + after := by omega
    rw [placedFrom_moved hmoved]
    rfl
  · intro i y hy hi
    rw [length_placedFrom] at hi
    have hbounds := start_bounds hy
    rw [if_neg (by omega), if_pos (by omega)]
  · intro i y hy
    have hbounds := start_bounds hy
    rw [length_placedFrom, if_neg (by omega), if_neg (by omega)]

/-- A result goes where the offsets say, and the blocks behind it move with it. -/
theorem withToolOutcome_eq {m : Manager} {shown : Text}
    (hcontent : m.state.content = partsText page t.parts ++ shown)
    (hblocks : m.toolBlocks = placedFrom page 0 t.parts) (n : ℕ) (codeBlock access : Text) :
    m.withToolOutcome n codeBlock access =
      (partsText page (t.answer n (codeBlock, access)).parts ++ shown,
        placedFrom page 0 (t.answer n (codeBlock, access)).parts) := by
  cases hn : t.parts[n]? with
  | none =>
    have hout : m.toolBlocks[n]? = none := by
      rw [List.getElem?_eq_none_iff] at hn ⊢
      rwa [hblocks, length_placedFrom]
    rw [Manager.withToolOutcome, hout, answer_of_none hn, hcontent, hblocks]
  | some p =>
    obtain ⟨above, call, given⟩ := p
    obtain ⟨pre, post, hparts, hlen⟩ := exists_split hn
    have hplaced := hblocks
    rw [hparts, placedFrom_append, placedFrom, Nat.zero_add] at hplaced
    have hget := congrArg (·[n]?) hplaced
    dsimp only at hget
    rw [List.getElem?_append_right (by rw [length_placedFrom, hlen]), length_placedFrom, hlen,
      Nat.sub_self, List.getElem?_cons_zero] at hget
    cases given with
    | some given =>
      rw [answer_of_answered hn (by simp), Manager.withToolOutcome, hget, hcontent, hblocks]
      rfl
    | none =>
      have hanswer : (t.answer n (codeBlock, access)).parts =
          pre ++ (above, ⟨call, some (codeBlock, access)⟩) :: post := by
        rw [Talk.answer, hparts, ← hlen, modify_split]
        rfl
      have hfilled := filled_eq page pre post above call shown codeBlock access
      have hlength := length_answered page pre post above ⟨call, none⟩
        ⟨call, some (codeBlock, access)⟩ shown
      rw [← hparts, ← hcontent] at hfilled hlength
      rw [hanswer, ← hfilled]
      rw [← hfilled] at hlength
      have hmoved := placed_answered page pre post above
        ⟨(partsText page pre).length + above.length, some ((partsText page pre).length + above.length +
          (Block.heading page ⟨call, none⟩ ++ Block.middle page ⟨call, none⟩).length)⟩ rfl hlength
      rw [← hmoved, Manager.withToolOutcome, hget, hplaced, hlen]
      rfl

end Steps

end ChatStream
