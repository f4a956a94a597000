import LazyDecl.Proofs.Grammar.Chunks

/-!
The grammar makes no tokens up. All tokens but those of the input are moved to another place,
which changes nothing about the input and so nothing about what is read from it. A token that
is stored in a tree or that an error points at has therefore not been moved
(`program_sources`).
-/

namespace LazyDecl

/-- Moves all tokens but those in the list. -/
def Relabeling.others (ts : List Token) : Relabeling where
  apply t := if t ∈ ts then t else { t with start := t.start.down 1 }
  kind_apply t := by split <;> rfl
  lexeme_apply t := by split <;> rfl
  hidden_apply t := by split <;> rfl

theorem Relabeling.others_eq_self {ts : List Token} {t : Token} : others ts t = t ↔ t ∈ ts := by
  constructor
  · intro h
    by_contra hmem
    have hmoved : others ts t = { t with start := t.start.down 1 } := if_neg hmem
    have hline := congrArg (·.start.line) (hmoved.symm.trans h)
    simp [Position.down] at hline
  · exact fun h => if_pos h

namespace Grammar

/-- What is the same when all other tokens are moved. -/
theorem program_others (mode : Mode) (ts : List Token) {final : Token} (heof : final.kind = .eof) :
    program mode (ts ++ [final]) =
      ((program mode (ts ++ [final])).1.map (Relabeling.others (ts ++ [final])),
        (program mode (ts ++ [final])).2.map
          (SyntaxError.relabel (Relabeling.others (ts ++ [final])))) := by
  have hinput : (ts ++ [final]).map (Relabeling.others (ts ++ [final])) = ts ++ [final] :=
    (List.map_congr_left fun t ht => Relabeling.others_eq_self.2 ht).trans (List.map_id _)
  conv_lhs => rw [← hinput]
  exact program_relabel _ mode heof

/-- **Trees and diagnostics point into the text.** All tokens that the units of a program store
are tokens that it was read from, and so are those that its errors point at. -/
theorem program_sources (mode : Mode) (ts : List Token) {final : Token}
    (heof : final.kind = .eof) :
    (program mode (ts ++ [final])).1.tokens ⊆ ts ++ [final] ∧
      ∀ e ∈ (program mode (ts ++ [final])).2, e.token ∈ ts ++ [final] := by
  have htokens := congrArg (fun r => r.1.tokens) (program_others mode ts heof)
  have herrors := congrArg Prod.snd (program_others mode ts heof)
  rw [Program.tokens_map] at htokens
  refine ⟨fun t ht => Relabeling.others_eq_self.1 ?_, fun e he => Relabeling.others_eq_self.1 ?_⟩
  · exact List.map_inj_left.1 (htokens.symm.trans (List.map_id _).symm) t ht
  · exact congrArg SyntaxError.token
      (List.map_inj_left.1 (herrors.symm.trans (List.map_id _).symm) e he)

theorem program_sources_tokens (mode : Mode) (source : String) :
    (program mode (LazyDecl.tokens source)).1.tokens ⊆ LazyDecl.tokens source ∧
      ∀ e ∈ (program mode (LazyDecl.tokens source)).2, e.token ∈ LazyDecl.tokens source := by
  rw [tokens_eq]
  exact program_sources mode _ rfl

end Grammar

end LazyDecl
