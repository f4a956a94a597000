import LazyDecl.Proofs.Text.Turns

/-!
Block comments where the scan comes to them. A comment is taken in one turn, up to the mark that
closes it, and leaves nothing behind. A comment that nothing closes takes all that is left
(`block_comments`).
-/

namespace LazyDecl

namespace Comment

/-- The block comments: an opening mark, then comments and characters that begin no mark, and
then the closing mark. -/
def IsBlock (cs : List Char) : Prop := ∃ rest, Rest rest ∧ cs = '/' :: '*' :: rest

/-- The counter of open comments stops where the rest of this one ends. -/
theorem Rest.closing?_append {cs : List Char} (h : Rest cs) (ds : List Char) :
    closing? 0 (cs ++ ds) = some cs.length :=
  h.closing?_eq 0 ds

/-- **A text begins with at most one block comment.** -/
theorem IsBlock.unique {cs ds text : List Char} (hc : IsBlock cs) (hd : IsBlock ds)
    (h : cs <+: text) (h' : ds <+: text) : cs = ds := by
  obtain ⟨rest, hrest, rfl⟩ := hc
  obtain ⟨rest', hrest', rfl⟩ := hd
  obtain ⟨tail, rfl⟩ := h
  obtain ⟨tail', htail⟩ := h'
  simp only [List.cons_append, List.cons.injEq, true_and] at htail
  have hlength : rest'.length = rest.length := by
    have hclose := hrest.closing?_append tail
    rw [← htail, hrest'.closing?_append] at hclose
    exact Option.some.inj hclose
  rw [(List.append_inj htail hlength).1]

end Comment

namespace Segment

theorem read_closed {inner : List Char} (h : Comment.Rest inner) (rest : List Char) (eol : Bool) :
    read eol '/' ('*' :: (inner ++ rest)) = (.comment, inner.length + 1) := by
  rw [read_block, readBlockComment, List.drop_succ_cons, List.drop_zero, h.closing?_append]

theorem read_unclosed {cs : List Char} (h : ∀ inner, Comment.Rest inner → ¬inner <+: cs)
    (eol : Bool) : read eol '/' ('*' :: cs) =
      (.malformed .unterminatedComment ['/', '*'], cs.length + 1) := by
  have hnone : Comment.closing? 0 cs = none := by
    cases hclose : Comment.closing? 0 cs with
    | none => rfl
    | some n =>
      obtain ⟨-, hrest⟩ := Comment.closing?_eq_some_iff.1 hclose
      exact absurd (List.take_prefix n cs) (h _ hrest)
  rw [read_block, readBlockComment, List.drop_succ_cons, List.drop_zero, hnone, List.length_cons]

end Segment

/-- **Block comments nest.** Where the scan comes to an opening mark, the one block comment that
the text begins with is taken in one turn, without a token or a diagnostic. If the text begins with
none, all of it is taken, and one error stands at the opening mark. -/
theorem block_comments {source : String} {front : List Segment} {cs : List Char}
    (h : Segment.Comes source front ('/' :: '*' :: cs)) :
    (∀ comment rest, Comment.IsBlock comment → '/' :: '*' :: cs = comment ++ rest →
      Segment.Turn source front comment [] [] rest ∧
        ∀ other, Comment.IsBlock other → other <+: '/' :: '*' :: cs → other = comment) ∧
    ((∀ comment, Comment.IsBlock comment → ¬comment <+: '/' :: '*' :: cs) →
      Segment.Turn source front ('/' :: '*' :: cs) []
          [Segment.mistake (Position.behind (front.flatMap (·.text))) .unterminatedComment
            ['/', '*']] [] ∧
        tokens source =
          front.filterMap Segment.token? ++ [.eof (Position.behind source.toList)]) := by
  constructor
  · rintro comment rest hcomment htext
    have hunique : ∀ other, Comment.IsBlock other → other <+: '/' :: '*' :: cs →
        other = comment := fun other hother hprefix =>
      hother.unique hcomment hprefix ⟨rest, htext.symm⟩
    refine ⟨?_, hunique⟩
    obtain ⟨inner, hinner, rfl⟩ := hcomment
    obtain rfl : cs = inner ++ rest := by simpa using htext
    have hturn : Segment.Turn source front _ [] [] _ :=
      h.turn (Segment.read_closed hinner rest) nofun rfl rfl
    simpa using hturn
  · intro hnone
    have hinner : ∀ inner, Comment.Rest inner → ¬inner <+: cs := fun inner hinner hprefix =>
      hnone _ ⟨inner, hinner, rfl⟩
        (List.cons_prefix_cons.2 ⟨rfl, List.cons_prefix_cons.2 ⟨rfl, hprefix⟩⟩)
    have hturn : Segment.Turn source front _ []
        [Segment.mistake _ .unterminatedComment ['/', '*']] _ :=
      h.turn (Segment.read_unclosed hinner) nofun rfl rfl
    rw [← List.length_cons (a := '*'), List.take_length, List.drop_length] at hturn
    refine ⟨hturn, ?_⟩
    have htokens := hturn.tokens
    rwa [Segment.resumed, Segment.cut, List.filterMap_nil, List.append_nil, List.append_nil]
      at htokens

/-- One comment that holds another one and marks that overlap, and one that nothing closes. -/
theorem block_comments_overlapping :
    let source := "a /*/ /*\n*/ **/ b /*c/**/"
    let comment := "/*/ /*\n*/ **/".toList
    let segments := Segment.ofSource source
    (Segment.Comes source (segments.take 2) (comment ++ " b /*c/**/".toList) ∧
        Comment.IsBlock comment ∧
        Segment.Turn source (segments.take 2) comment [] [] " b /*c/**/".toList) ∧
      Segment.Comes source (segments.take 6) "/*c/**/".toList ∧
        (∀ comment, Comment.IsBlock comment → ¬comment <+: "/*c/**/".toList) ∧
        tokens source =
          [⟨.identifier, "a", ⟨1, 1⟩, false⟩, ⟨.identifier, "b", ⟨2, 8⟩, false⟩, .eof ⟨2, 17⟩] := by
  intro source comment segments
  have hfirst : Segment.Comes source (segments.take 2) (comment ++ " b /*c/**/".toList) :=
    ⟨segments.drop 2, (List.take_append_drop _ _).symm, by decide +kernel⟩
  have hlast : Segment.Comes source (segments.take 6) "/*c/**/".toList :=
    ⟨segments.drop 6, (List.take_append_drop _ _).symm, by decide +kernel⟩
  have hcomment : Comment.IsBlock comment := by
    refine ⟨"/ /*\n*/ **/".toList, ?_, by decide⟩
    have hline : Comment.Rest ['\n', '*', '/'] := .char (by decide) (by decide) .close
    have hend : Comment.Rest [' ', '*', '*', '/'] :=
      .char (by decide) (by decide) (.char (by decide) (by decide) .close)
    exact .char (by decide) (by decide) (.char (by decide) (by decide) (.nested hline hend))
  have hnone : ∀ comment, Comment.IsBlock comment → ¬comment <+: "/*c/**/".toList := by
    rintro _ ⟨rest, hrest, rfl⟩ hprefix
    have hclose : Comment.closing? 0 ['c', '/', '*', '*', '/'] = none := by decide
    exact Comment.closing?_eq_none hclose hrest
      (List.cons_prefix_cons.1 (List.cons_prefix_cons.1 hprefix).2).2
  obtain ⟨hturn, -⟩ := (block_comments hfirst).1 comment _ hcomment rfl
  obtain ⟨-, htokens⟩ := (block_comments hlast).2 hnone
  exact ⟨⟨hfirst, hcomment, hturn⟩, hlast, hnone, htokens.trans (by decide +kernel)⟩

end LazyDecl
