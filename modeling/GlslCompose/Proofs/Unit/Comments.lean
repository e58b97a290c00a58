import GlslCompose.Library.Basic
import GlslCompose.Proofs.Token.Comments
import Mathlib.Data.List.Induction

/-!
# Units without directives

A source that has no directive comes out of a library without defines and stages as it
went in, except for its comments.  They leave nothing behind, not even a blank, so two
tokens that only a comment keeps apart become one.
-/

namespace GlslCompose

open Token

private theorem Text.splitAround?_eq_none {char : Char} {pattern source : Text}
    (hpattern : char ∈ pattern) (hsource : char ∉ source) : splitAround? pattern source = none := by
  induction source with
  | nil => rw [splitAround?, if_neg (List.ne_nil_of_mem hpattern)]
  | cons first rest ih =>
      rw [splitAround?]
      split
      · rename_i after hafter
        rw [List.isPrefixOf?_eq_some_iff_append_eq] at hafter
        rw [← hafter, List.mem_append] at hsource
        exact absurd (.inl hpattern) hsource
      · rw [ih fun hmem => hsource (List.mem_cons_of_mem first hmem)]
        rfl

theorem Include.request_of_isPlain {token : Token}
    (h : token.kind = .whitespace ∨ token.kind.isPlain = true) :
    request token = .keep token.text := by
  obtain ⟨kind, text, line⟩ := token
  cases kind <;> simp [TokenKind.isPlain] at h <;> rfl

theorem Include.request_of_isComment {token : Token} (h : token.kind.isComment = true) :
    request token = .nothing := by
  obtain ⟨kind, text, line⟩ := token
  cases kind <;> simp [TokenKind.isComment] at h <;> rfl

namespace Composer

private theorem expandTokens_cons (composer : Composer) (fetch : Option Fetch)
    (directory : Text) (trail : IncludeTrail) {token : Token} {tokens : List Token}
    {text more : Text} {cache after : UnitCache}
    (htoken : composer.expandToken fetch directory trail token cache = (.ok text, cache))
    (htokens : composer.expandTokens fetch directory trail tokens cache = (.ok more, after)) :
    composer.expandTokens fetch directory trail (token :: tokens) cache =
      (.ok (text ++ more), after) := by
  rw [expandTokens, Assembly.bind_ok htoken, Assembly.bind_ok htokens]
  rfl

private theorem expandTokens_of_no_mark (composer : Composer) (fetch : Option Fetch)
    (directory : Text) (trail : IncludeTrail) (version : GlslVersion) (number : Nat) {source : Text}
    (hmark : '#' ∉ source) (cache : UnitCache) :
    composer.expandTokens fetch directory trail (tokensFrom version number source) cache =
      (.ok (withoutComments (tokensFrom version number source)), cache) := by
  fun_induction tokensFrom version number source with
  | case1 => rfl
  | case2 number first rest lexeme text ih =>
      have hrest : '#' ∉ lexeme.rest := by
        rw [List.mem_cons, ← scan_append version first rest, List.mem_append] at hmark
        tauto
      rw [withoutComments_cons]
      by_cases hcomment : lexeme.kind.isComment = true
      · rw [if_pos hcomment]
        have htoken : composer.expandToken fetch directory trail ⟨lexeme.kind, text, number⟩
            cache = (.ok [], cache) := by
          rw [expandToken, Include.request_of_isComment hcomment]
          rfl
        exact composer.expandTokens_cons fetch directory trail htoken (ih hrest)
      · rw [if_neg hcomment]
        have hkind : lexeme.kind = .whitespace ∨ lexeme.kind.isPlain = true := by
          rcases scan_opening version first rest with hblank | ⟨-, hother⟩ | rfl | hplain
          · exact .inl (congrArg Lexeme.kind (scan_blank hblank rest))
          · exact absurd hother hcomment
          · simp at hmark
          · exact .inr (isPlain_scan hplain)
        have htoken : composer.expandToken fetch directory trail ⟨lexeme.kind, text, number⟩
            cache = (.ok text, cache) := by
          rw [expandToken, Include.request_of_isPlain hkind]
          rfl
        exact composer.expandTokens_cons fetch directory trail htoken (ih hrest)

end Composer

namespace Library

variable {library : Library} {source : Text}

private theorem process_of_no_mark (hregistry : library.registry = .empty)
    (hstages : library.stages = []) (hmark : '#' ∉ source) (name : Option Text) :
    library.process name source .empty =
      (.ok (withoutComments (tokenize library.version source)), library) := by
  obtain ⟨composer, cache, interner⟩ := library
  have hexpand := composer.expandTokens_of_no_mark (composer.fetch? composer.maxIncludeDepth)
    (Composer.unitDirectory name) [] composer.version 1 hmark cache
  have hinject : (composer.registry.merge .empty).inject source = source := by
    rw [hregistry]
    rfl
  have hstaged : ∀ text, composer.runStages .empty text = text := by
    intro text
    rw [Composer.runStages, hstages]
    rfl
  have hmarker : (withoutComments (tokenize composer.version source)).replaceFirst
      Composer.toolingMarker [] = withoutComments (tokenize composer.version source) := by
    have hleft : '#' ∉ withoutComments (tokenize composer.version source) :=
      fun hmem => hmark (mem_of_mem_withoutComments hmem)
    rw [Text.replaceFirst, Text.splitAround?_eq_none (by decide) hleft]
  have hprocess : composer.process name source .empty cache =
      (.ok (withoutComments (tokenize composer.version source)), cache) := by
    simp only [Composer.process, Composer.processWith, hinject]
    rw [tokenize, Assembly.bind_ok hexpand, Assembly.pure_apply, hstaged]
    exact congrArg (fun text => (Except.ok text, cache)) hmarker
  simp only [process, assemble, hprocess]

/-- If each run of comments has blank space, the end, or an operator that joins nothing on
one of its sides, a source without directives keeps all its other tokens. -/
theorem significant_process (hregistry : library.registry = .empty) (hstages : library.stages = [])
    (hmark : '#' ∉ source) (happart : commentsApart (tokenize library.version source) = true)
    (name : Option Text) :
    ∃ text, library.process name source .empty = (.ok text, library) ∧
      significant (tokenize library.version text) =
        significant (tokenize library.version source) ∧
      ∀ token ∈ tokenize library.version text, token.kind.isComment = false := by
  have hsolids := solids_withoutComments 1 1 hmark happart
  refine ⟨_, process_of_no_mark hregistry hstages hmark name, ?_, fun token hmem =>
    isComment_of_solids_eq hsolids hmem⟩
  rw [significant_eq_filter, tokenize, tokenize, hsolids, significant_eq_filter,
    List.filter_filter]
  simp only [Bool.and_self]

def bareLibrary : Library := ofSettings { includeBuiltins := false }

def commentedSource : Text :=
  "vec4 /* tint */ color = f(/* half */.5); // done
float/*g*/ g = 1e/*h*/;".toList

set_option maxRecDepth 10000 in
theorem significant_process_commentedSource :
    bareLibrary.registry = .empty ∧ bareLibrary.stages = [] ∧ '#' ∉ commentedSource ∧
    commentsApart (tokenize bareLibrary.version commentedSource) = true ∧
    ∃ text, bareLibrary.process none commentedSource .empty = (.ok text, bareLibrary) ∧
      significant (tokenize bareLibrary.version text) =
        significant (tokenize bareLibrary.version commentedSource) ∧
      ∀ token ∈ tokenize bareLibrary.version text, token.kind.isComment = false := by
  have hregistry : bareLibrary.registry = .empty := by decide +kernel
  have hmark : '#' ∉ commentedSource := by decide +kernel
  have happart : commentsApart (tokenize bareLibrary.version commentedSource) = true := by
    decide +kernel
  exact ⟨hregistry, rfl, hmark, happart,
    significant_process hregistry rfl hmark happart none⟩

set_option maxRecDepth 10000 in
/-- Without its comment a declaration is one word. -/
theorem significant_process_ne :
    (bareLibrary.process none "int/**/x;".toList .empty).1 = .ok "intx;".toList ∧
    significant (tokenize bareLibrary.version "intx;".toList) ≠
      significant (tokenize bareLibrary.version "int/**/x;".toList) := by
  decide +kernel

end Library

end GlslCompose
