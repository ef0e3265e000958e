import SvelteSyntax.Program.Names
import SvelteSyntax.Proofs.Markup.Progress

namespace SvelteSyntax.Program

open Text Markup

/-- The region of the nodes that have such a name. -/
def NameRole.region : NameRole → Region
  | component | directive => .openTag
  | eachIndex | eachKey | awaitValue | awaitError => .braces

namespace NameRole

theorem start_or_holds (role : NameRole) :
    role.start = role.region.start ∨ role.region.holds role.start := by
  cases role <;> simp [start, region, Region.start, Region.holds]

theorem stop_mem_ends (role : NameRole) : role.region.stop ∈ role.ends := by
  cases role <;> simp [ends, region, Region.stop]

end NameRole

variable {index : LineIndex} {source : List Char} {lexemes : List Lexeme} {start : Nat}
  {role : NameRole} {expected : String} {l : Lexeme}

theorem seekName_eq_inl {last ls} (h : seekName role last ls = .inl l) :
    ∃ inner after, ls = inner ++ l :: after ∧ l.kind = role.lexeme ∧
      ∀ kind ∈ inner.map (·.kind), kind ∉ role.ends := by
  fun_induction seekName role last ls with
  | case1 => cases h
  | case2 last l' ls hkind =>
    cases h
    exact ⟨[], ls, rfl, hkind, by simp⟩
  | case3 => cases h
  | case4 last l' ls _ hends ih =>
    obtain ⟨inner, after, rfl, hkind, hinner⟩ := ih h
    refine ⟨l' :: inner, after, rfl, hkind, ?_⟩
    rw [List.map_cons, List.forall_mem_cons]
    exact ⟨by simpa using hends, hinner⟩

theorem findName_eq_ok (h : findName index lexemes start role expected = .ok l) :
    String.ofList l.value = expected ∧ ∃ before opening inner after,
      lexemes = before ++ opening :: (inner ++ l :: after) ∧ opening.offset = start ∧
        opening.kind = role.start ∧ l.kind = role.lexeme ∧
        ∀ kind ∈ inner.map (·.kind), kind ∉ role.ends := by
  unfold findName at h
  split at h
  · cases h
  · rename_i opening rest hdrop
    have hoffset : opening.offset = start := by
      have hhead := List.head?_dropWhile_not (fun l : Lexeme => decide (l.offset ≠ start)) lexemes
      rw [hdrop] at hhead
      simpa using hhead
    split at h
    · cases h
    · rename_i hstart
      split at h
      · rename_i name hseek
        obtain ⟨inner, after, rfl, hkind, hinner⟩ := seekName_eq_inl hseek
        split at h
        · rename_i hvalue
          cases h
          refine ⟨hvalue, lexemes.takeWhile (·.offset ≠ start), opening, inner, after, ?_, hoffset,
            not_not.mp hstart, hkind, hinner⟩
          rw [← hdrop, List.takeWhile_append_dropWhile]
        · cases h
      · cases h

theorem NameRole.isOpen_of_start {isOpen next} (h : role.region.after isOpen role.start = some next) :
    next = true := by
  rcases Region.after_eq_some h with ⟨-, -, hnext⟩ | ⟨hstop, -⟩ | ⟨hne, -, rfl, hholds, -⟩
  · exact hnext
  · cases role <;> cases hstop
  · exact hholds (role.start_or_holds.resolve_left hne)

/-- The lexemes of a component keep to their regions. A name is found before the region ends in
which its node starts. -/
theorem lexemes_keep_to_regions (h : lex index source = .ok lexemes) :
    (∀ region : Region, region.RespectedBy (lexemes.map (·.kind))) ∧
      ∀ start role expected l, findName index lexemes start role expected = .ok l →
        ∃ before opening inner after, lexemes = before ++ opening :: (inner ++ l :: after) ∧
          opening.offset = start ∧ opening.kind = role.start ∧ l.kind = role.lexeme ∧
          role.region.edges (inner.map (·.kind)) = [] := by
  constructor
  · intro region
    obtain ⟨isOpen, hfits⟩ := exists_afterAll_of_lex h region
    exact Region.respectedBy_of_afterAll hfits
  · intro start role expected l hfind
    obtain ⟨-, before, opening, inner, after, rfl, hoffset, hopening, hkind, hinner⟩ :=
      findName_eq_ok hfind
    refine ⟨before, opening, inner, after, rfl, hoffset, hopening, hkind, ?_⟩
    obtain ⟨isOpen, hfits⟩ := exists_afterAll_of_lex h role.region
    rw [List.map_append, List.map_cons, List.map_append] at hfits
    obtain ⟨_, -, hfits⟩ := Region.afterAll_append_eq_some.mp hfits
    obtain ⟨next, hnext, hfits⟩ := Region.afterAll_cons.mp hfits
    obtain rfl := NameRole.isOpen_of_start (hopening ▸ hnext)
    obtain ⟨_, hfits, -⟩ := Region.afterAll_append_eq_some.mp hfits
    -- The first edge after the start would be an end, and with it the search.
    rcases Region.exists_stop hfits with hedges | ⟨_, _, heq, -⟩
    · exact hedges
    · exact absurd role.stop_mem_ends (hinner _ (by simp [heq]))

theorem lexemes_keep_to_regions_directive :
    ∃ lexemes l,
      lex (.ofText "<A b:c=\x7bd\x7d />".toList) "<A b:c=\x7bd\x7d />".toList = .ok lexemes ∧
      findName (.ofText "<A b:c=\x7bd\x7d />".toList) lexemes 3 .directive "c" = .ok l ∧
      (∀ region : Region, region.RespectedBy (lexemes.map (·.kind))) ∧
      ∃ before opening inner after, lexemes = before ++ opening :: (inner ++ l :: after) ∧
        opening.offset = 3 ∧ Region.openTag.edges (inner.map (·.kind)) = [] := by
  have hlex : lex (.ofText "<A b:c=\x7bd\x7d />".toList) "<A b:c=\x7bd\x7d />".toList = .ok
      [⟨.openStart, ['<'], 0⟩, ⟨.componentName, ['A'], 1⟩, ⟨.attributeName, ['b'], 3⟩,
        ⟨.directiveColon, [':'], 4⟩, ⟨.directiveName, ['c'], 5⟩, ⟨.attributeEqual, ['='], 6⟩,
        ⟨.mustacheStart, ['\x7b'], 7⟩, ⟨.mustacheEnd, ['\x7d'], 9⟩,
        ⟨.openEnd, ['/', '>'], 11⟩] := by rfl
  obtain ⟨hregions, hnames⟩ := lexemes_keep_to_regions hlex
  obtain ⟨before, opening, inner, after, hlexemes, hoffset, -, -, hedges⟩ :=
    hnames 3 .directive "c" ⟨.directiveName, ['c'], 5⟩ (by rfl)
  exact ⟨_, _, hlex, by rfl, hregions, before, opening, inner, after, hlexemes, hoffset, hedges⟩

end SvelteSyntax.Program
