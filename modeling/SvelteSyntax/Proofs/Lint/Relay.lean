import SvelteSyntax.Lint.Report
import SvelteSyntax.Proofs.Text.Scan

namespace SvelteSyntax.Lint

open Text

/-- The report about a warning, under a rule of its own. -/
def Report.ofCode (w : Component.Warning) : Report :=
  { ruleId := warningRule ++ "/" ++ w.code, message := w.message, line := w.start.line,
    column := w.start.column }

variable {r : Report} {w : Component.Warning}

theorem warningRule_append_ne (code : String) : warningRule ++ "/" ++ code ≠ warningRule := by
  intro h
  have hlength := congrArg String.length h
  have hslash : "/".length = 1 := rfl
  rw [String.length_append, String.length_append] at hlength
  omega

theorem Report.specialize_of_ne (h : r.ruleId ≠ warningRule) : r.specialize = r := if_pos h

theorem toList_separator : separator.toList = [':', ' '] := rfl

theorem splitAt?_separator {code} (hcode : ¬ separator.toList <:+: code.toList) (message : String) :
    splitAt? separator.toList (code ++ separator ++ message).toList =
      some (code.toList, separator.toList ++ message.toList) := by
  rw [String.toList_append, String.toList_append, List.append_assoc]
  rw [toList_separator] at hcode ⊢
  exact splitAt?_append (by decide) hcode message.toList

theorem Report.specialize_ofWarning (hcode : ¬ separator.toList <:+: w.code.toList) :
    (Report.ofWarning w).specialize = .ofCode w := by
  have hdrop : List.drop separator.length (separator.toList ++ w.message.toList) = w.message.toList :=
    List.drop_left
  rw [specialize, if_neg (by simp [ofWarning])]
  simp only [ofWarning, splitAt?_separator hcode]
  rw [hdrop, String.ofList_toList, String.ofList_toList, ofCode]

theorem Report.specialize_specialize (r : Report) : r.specialize.specialize = r.specialize := by
  by_cases hrule : r.ruleId = warningRule
  · cases hsplit : splitAt? separator.toList r.message.toList with
    | none =>
      have hsame : r.specialize = r := by rw [specialize, if_neg (by simpa using hrule), hsplit]
      rw [hsame, hsame]
    | some parts =>
      apply specialize_of_ne
      rw [specialize, if_neg (by simpa using hrule), hsplit]
      exact warningRule_append_ne _
  · rw [specialize_of_ne hrule, specialize_of_ne hrule]

/-- Each warning that is not ignored gives one report with its code in the name of the rule, and with
its message and its place; what other rules report stays, and so does all that was moved before. -/
theorem postprocess_relay :
    (∀ (ignore : List String) (warnings : List Component.Warning),
      (∀ w ∈ warnings, ¬ separator.toList <:+: w.code.toList) →
        postprocess (relay ignore warnings) =
          (warnings.filter fun w => w.code ∉ ignore).map .ofCode) ∧
    (∀ (reports : List Report) (i : Nat) (r : Report), reports[i]? = some r →
      r.ruleId ≠ warningRule → (postprocess reports)[i]? = some r) ∧
    ∀ reports, (postprocess reports).length = reports.length ∧
      postprocess (postprocess reports) = postprocess reports := by
  refine ⟨fun ignore warnings hcodes => ?_, fun reports i r hr hrule => ?_, fun reports => ⟨?_, ?_⟩⟩
  · have hfilter : (fun w : Component.Warning => !ignore.contains w.code) =
        fun w => decide (w.code ∉ ignore) := by
      funext w
      simp
    rw [postprocess, relay, List.map_map, hfilter]
    apply List.map_congr_left
    intro w hw
    exact Report.specialize_ofWarning (hcodes w (List.mem_filter.mp hw).1)
  · rw [postprocess, List.getElem?_map, hr, Option.map_some, Report.specialize_of_ne hrule]
  · rw [postprocess, List.length_map]
  · rw [postprocess, postprocess, List.map_map]
    apply List.map_congr_left
    intro r _
    exact r.specialize_specialize

/-- A separator in a message stays there, and an ignored code gives no report. -/
theorem postprocess_relay_pair :
    let unused : Component.Warning := ⟨"css-unused-selector", "Unused: a: b", ⟨2, 4, 11⟩, ⟨2, 6, 13⟩⟩
    let missing : Component.Warning := ⟨"a11y-missing-attribute", "Missing: alt", ⟨1, 0, 0⟩, ⟨1, 5, 5⟩⟩
    (∀ w ∈ [missing, unused], ¬ separator.toList <:+: w.code.toList) ∧
      postprocess (relay ["a11y-missing-attribute"] [missing, unused]) =
        [⟨"svelte/compiler-warnings/css-unused-selector", "Unused: a: b", 2, 4⟩] := by
  intro unused missing
  have hcodes : ∀ w ∈ [missing, unused], ¬ separator.toList <:+: w.code.toList := by
    intro w hw hinfix
    have hmem : ':' ∈ w.code.toList := hinfix.subset (by simp [toList_separator])
    rcases List.mem_cons.mp hw with rfl | hw
    · simp [missing] at hmem
    · obtain rfl := List.mem_singleton.mp hw
      simp [unused] at hmem
  refine ⟨hcodes, (postprocess_relay.1 ["a11y-missing-attribute"] _ hcodes).trans ?_⟩
  simp [missing, unused, Report.ofCode, warningRule]

end SvelteSyntax.Lint
