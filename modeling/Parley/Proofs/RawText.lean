import Parley.Proofs.Emission
import Parley.Proofs.LineEnds
import Parley.Proofs.Loading

/-! # Texts as they are and as they are read from files

A text yields the same tokens, and breaks off with the same error, as the text with its line ends unified. Reading a
file unifies them, so it makes no difference to what is registered whether a text is loaded as it is or from a file. -/

namespace Parley

/-- The text with a line feed at the end of every line. -/
def unifiedText (source : String) : String := String.ofList (unifyLineEnds source.toList)

/-- The passes over both texts are the same. -/
theorem Lexes.unified {s : Lexer} {ts : List Token} {e : Option LexError} (h : Lexes s ts e) :
    Lexes s.unified ts e := by
  have hpass {s s' : Lexer} {r : Lexer.Pass} (h : s.pass = (r, s')) : s.unified.pass = (r, s'.unified) := by
    rw [Lexer.pass_unified, h]
    rfl
  induction h with
  | queued hpending ht _ ih => exact .queued hpending ht ih
  | again hpending h _ ih => exact .again hpending (hpass h) ih
  | token hpending h ht _ ih => exact .token hpending (hpass h) ht ih
  | last hpending h ht => exact .last hpending (hpass h) ht
  | failed hpending h => exact .failed hpending (hpass h)

namespace Lexer

theorem ofText_unifiedText (source : String) : ofText (unifiedText source) = (ofText source).unified := by
  simp [ofText, unifiedText, unified]

theorem tokenize_unified {s : Lexer} (hs : Unended s) :
    s.unified.tokenize.tokens = s.tokenize.tokens ∧ s.unified.tokenize.error = s.tokenize.error :=
  (lexes_tokenize hs).unified.tokenize

end Lexer

theorem tokens_unifiedText (source : String) : tokens (unifiedText source) = tokens source := by
  have hunended : (Lexer.ofText source).Unended := nofun
  obtain ⟨htokens, herror⟩ := Lexer.tokenize_unified hunended
  unfold tokens
  dsimp only
  rw [Lexer.ofText_unifiedText, htokens, herror]

theorem parseScript_unifiedText (source : String) : parseScript (unifiedText source) = parseScript source := by
  unfold parseScript
  rw [tokens_unifiedText]

namespace Play
variable {σ μ : Type} {source : String}

theorem parseAndRegister_unifiedText (source : String) :
    (parseAndRegister (unifiedText source) : Play σ μ (List String)) = parseAndRegister source := by
  unfold parseAndRegister parse
  rw [parseScript_unifiedText]

theorem loadText_unifiedText (source origin : String) :
    (loadText (unifiedText source) origin : Play σ μ LoadReport) = loadText source origin := by
  unfold loadText
  rw [parseAndRegister_unifiedText]

/-- A file that can be read is loaded as the text that is in it. -/
theorem loadFile_eq_loadText {files : FileTree} {path place : FilePath} {bytes : ByteArray}
    (hplace : files.place path = .ok (.inside place)) (hfile : files.file? place = some bytes)
    (htext : String.fromUTF8? bytes = some source) (root : String) :
    (loadFile files root path : Play σ μ LoadReport) = loadText source (path.shown root) := by
  have hread : files.readText path = .ok (unifiedText source) := by
    simp only [FileTree.readText, hplace, hfile, htext, bind, Except.bind, pure, Except.pure, unifiedText]
  unfold loadFile
  rw [hread]
  exact loadText_unifiedText source _

/-- What a text is called does not matter to what is registered. -/
theorem loadText_origin (source origin origin' : String) (w : World σ μ) : ∃ report report' v v',
    loadText source origin w = .ok report v ∧ loadText source origin' w = .ok report' v' ∧
      report.nodes = report'.nodes ∧ v.nodes = v'.nodes := by
  obtain ⟨_, ⟨s, -, -, hrun⟩ | ⟨f, -, hscript, hrun⟩⟩ := parseAndRegister_run source w
  · obtain ⟨journal, hload⟩ := loadText_of_ok hrun origin
    obtain ⟨journal', hload'⟩ := loadText_of_ok hrun origin'
    exact ⟨_, _, _, _, hload, hload', rfl, rfl⟩
  · obtain ⟨journal, hload⟩ := loadText_of_error hrun hscript origin
    obtain ⟨journal', hload'⟩ := loadText_of_error hrun hscript origin'
    exact ⟨_, _, _, _, hload, hload', rfl, rfl⟩

end Play

/-- A text and the text with its line ends unified yield the same tokens at the same places and, if they break off, the
same error, and so parse alike; and a file registers the same nodes as the text that is in it. -/
theorem unifiedText_alike {σ μ : Type} (source : String) :
    (Lexer.ofText (unifiedText source)).tokenize.tokens = (Lexer.ofText source).tokenize.tokens ∧
    (Lexer.ofText (unifiedText source)).tokenize.error = (Lexer.ofText source).tokenize.error ∧
    parseScript (unifiedText source) = parseScript source ∧
    ∀ (files : FileTree) (path place : FilePath) (bytes : ByteArray), files.place path = .ok (.inside place) →
      files.file? place = some bytes → String.fromUTF8? bytes = some source →
      ∀ (root origin : String) (w : World σ μ), ∃ report report' v v', Play.loadFile files root path w = .ok report v ∧
        Play.loadText source origin w = .ok report' v' ∧ report.nodes = report'.nodes ∧ v.nodes = v'.nodes := by
  have hunended : (Lexer.ofText source).Unended := nofun
  obtain ⟨htokens, herror⟩ := Lexer.tokenize_unified hunended
  rw [Lexer.ofText_unifiedText]
  refine ⟨htokens, herror, parseScript_unifiedText source, ?_⟩
  intro files path place bytes hplace hfile htext root origin w
  rw [Play.loadFile_eq_loadText hplace hfile htext]
  exact Play.loadText_origin source (path.shown root) origin w

/-- All three line ends, the last of them at the end of the text. -/
def mixedScript : String := ":: n\r\nA: hi\r\r\n// there\n->\r    you\r"

theorem unifiedText_alike_mixed :
    unifiedText mixedScript = ":: n\nA: hi\n\n// there\n->\n    you\n" ∧
    ((Lexer.ofText mixedScript).tokenize.tokens.map fun t => (t.kind, t.line, t.column)) =
      [(.doubleColon, 1, 1), (.identifier, 1, 4), (.newline, 1, 5), (.identifier, 2, 1), (.colon, 2, 2), (.text, 2, 4),
        (.newline, 2, 6), (.arrow, 5, 1), (.newline, 5, 3), (.indent, 6, 5), (.text, 6, 5), (.newline, 6, 8),
        (.dedent, 7, 1), (.eof, 7, 1)] ∧
    (Lexer.ofText (unifiedText mixedScript)).tokenize.tokens = (Lexer.ofText mixedScript).tokenize.tokens ∧
    ∃ report report' v v',
      Play.loadFile ⟨[(["a.dlg"], .file mixedScript.toUTF8)]⟩ "root" ["a.dlg"] ({ host := () } : World Unit Unit) =
        .ok report v ∧
      Play.loadText mixedScript "text" ({ host := () } : World Unit Unit) = .ok report' v' ∧
      report.nodes = ["n"] ∧ report.nodes = report'.nodes ∧ v.nodes = v'.nodes := by
  let files : FileTree := ⟨[(["a.dlg"], .file mixedScript.toUTF8)]⟩
  have hplace : files.place ["a.dlg"] = .ok (.inside ["a.dlg"]) := by
    have hpath : FileTree.pathFault? ["a.dlg"] = none := by
      simp only [FileTree.pathFault?, List.any_cons, List.any_nil, String.contains_char_eq]
      rfl
    rw [FileTree.place, hpath]
    rfl
  obtain ⟨htokens, -, -, hload⟩ := unifiedText_alike (σ := Unit) (μ := Unit) mixedScript
  obtain ⟨report, report', v, v', hfile, htext, hnodes, htable⟩ := hload files ["a.dlg"] ["a.dlg"] mixedScript.toUTF8
    hplace (by decide +kernel) (by decide +kernel) "root" "text" { host := () }
  have hreport : ((Play.loadText mixedScript "text").run' ({ host := () } : World Unit Unit)).map LoadReport.nodes =
      some ["n"] := by
    decide +kernel
  have hrun {x : Play Unit Unit LoadReport} {w v : World Unit Unit} (hx : x w = .ok report' v) :
      x.run' w = some report' := by
    show EStateM.run' (fun _ => x w) w = some report'
    rw [hx]
    rfl
  rw [hrun htext] at hreport
  exact ⟨by decide +kernel, by decide +kernel, htokens, report, report', v, v', hfile, htext,
    hnodes.trans (Option.some.inj hreport), hnodes, htable⟩

end Parley
