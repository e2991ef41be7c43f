import Shorthand.Editor.Store
import Shorthand.Proofs.Text.Positions

/-!
# Synchronization — the server's copy of a document is the client's

A client edits its text by offsets and reports each edit by the positions of its ends, in the text
as it was before that edit. The server works the offsets out again from its own copy. One edit keeps
the two copies equal (`apply_report`), so a whole list of them does (`foldl_apply_reports`), and
what the store makes of the list is decided by the size of the client's text alone
(`change_reports`).
-/

namespace Shorthand.Editor

open Text

/-! ## The client -/

/-- An edit of a text: `text` in place of the characters from `start` to `stop`. -/
structure Edit where
  start : Nat
  stop : Nat
  text : String
  deriving Repr, DecidableEq

namespace Edit

/-- The text after an edit. -/
def apply (text : List Char) (e : Edit) : List Char :=
  text.take e.start ++ e.text.toList ++ text.drop e.stop

/-- The edit as it is reported to the server. -/
def report (text : List Char) (e : Edit) : Change :=
  { range := some ⟨positionOf text e.start, positionOf text e.stop⟩, text := e.text }

/-- The reports on a list of edits, each about the text that the edits before it have left. -/
def reports (text : List Char) : List Edit → List Change
  | [] => []
  | e :: edits => e.report text :: reports (e.apply text) edits

/-- An edit inside a text whose carriage returns only end lines, and that splits no line break. -/
def Allowed (text : List Char) (e : Edit) : Prop :=
  e.start ≤ e.stop ∧ e.stop ≤ text.length ∧ ReturnsEndLines text ∧
    ¬ SplitsBreak text e.start ∧ ¬ SplitsBreak text e.stop

/-- Edits that are each allowed in the text that the edits before it have left. -/
def AllAllowed (text : List Char) : List Edit → Prop
  | [] => True
  | e :: edits => e.Allowed text ∧ AllAllowed (e.apply text) edits

instance (text : List Char) (e : Edit) : Decidable (e.Allowed text) :=
  inferInstanceAs (Decidable (_ ∧ _ ∧ _ ∧ _ ∧ _))

instance decidableAllAllowed : ∀ (text : List Char) (edits : List Edit),
    Decidable (AllAllowed text edits)
  | _, [] => isTrue trivial
  | text, e :: edits =>
    have := decidableAllAllowed (e.apply text) edits
    inferInstanceAs (Decidable (_ ∧ _))

/-- **One report keeps the copies equal**: the server's change does what the client's edit did. -/
theorem apply_report {text : List Char} {e : Edit} (h : e.Allowed text) :
    Change.apply text (e.report text) = e.apply text := by
  obtain ⟨hle, hstop, hreturns, hstart_split, hstop_split⟩ := h
  have hstart := offsetOf_positionOf (by omega) hreturns hstart_split
  have hstop' := offsetOf_positionOf hstop hreturns hstop_split
  simp only [Change.apply, report, hstart, hstop', Nat.max_eq_left hle, apply]

/-- A list of reports keeps the copies equal. -/
theorem foldl_apply_reports {text : List Char} {edits : List Edit} (h : AllAllowed text edits) :
    (reports text edits).foldl Change.apply text = edits.foldl apply text := by
  induction edits generalizing text with
  | nil => rfl
  | cons e edits ih =>
      obtain ⟨hfirst, hrest⟩ := h
      rw [reports, List.foldl_cons, List.foldl_cons, apply_report hfirst]
      exact ih hrest

end Edit

/-! ## The store -/

namespace Store

/-- What is found after a document was put in the place of one that was there. -/
theorem find?_replace {s : Store} {uri : Uri} {entry : StoreEntry}
    (h : s.find? uri = some entry) (now : Nat) (document : Document) :
    (s.replace now uri document).find? uri = some ⟨uri, document, now⟩ := by
  simp only [find?, replace] at h ⊢
  generalize s.entries = entries at h ⊢
  induction entries with
  | nil => cases h
  | cons e entries ih =>
      rw [List.map_cons, List.find?_cons]
      rw [List.find?_cons] at h
      cases he : e.uri == uri with
      | true => simp
      | false =>
          simp only [he] at h
          simp only [Bool.false_eq_true, if_false, he]
          exact ih h

/-- A document that is there is what looking it up gives. -/
theorem get_fst_of_find? {s : Store} {uri : Uri} {entry : StoreEntry}
    (h : s.find? uri = some entry) (now : Nat) : (s.get now uri).1 = some entry.document := by
  simp only [get, h]

/-- **The store follows the client.** Reporting any allowed edits of an open document is accepted if
and only if the client's text fits. If it is accepted, the document has the client's text and the
reported version from then on; if not, the store is what it was. -/
theorem change_reports (s : Store) (now : Nat) (uri : Uri) (version : Int) (entry : StoreEntry)
    (edits : List Edit) (hopen : s.find? uri = some entry)
    (hedits : Edit.AllAllowed entry.document.text.toList edits) :
    let final := String.ofList (edits.foldl Edit.apply entry.document.text.toList)
    let outcome := s.change now uri version (Edit.reports entry.document.text.toList edits)
    (outcome.1 = true ↔ textSize final ≤ s.maxSize) ∧
    (outcome.1 = true → ∀ later,
      (outcome.2.get later uri).1 = some { entry.document with text := final, version }) ∧
    (outcome.1 = false → outcome.2 = s) := by
  intro final outcome
  have hfinal : Change.applyAll (Edit.reports entry.document.text.toList edits)
      entry.document.text = final := by
    rw [Change.applyAll, Edit.foldl_apply_reports hedits]
  have houtcome : outcome = if s.maxSize < textSize final then (false, s)
      else (true, s.replace now uri { entry.document with text := final, version }) := by
    simp only [outcome, change, hopen, hfinal]
  rcases Nat.lt_or_ge s.maxSize (textSize final) with hlarge | hfits
  · rw [if_pos hlarge] at houtcome
    rw [houtcome]
    refine ⟨⟨by simp, fun hle => absurd hle (Nat.not_le_of_lt hlarge)⟩, by simp, fun _ => rfl⟩
  · rw [if_neg (Nat.not_lt_of_ge hfits)] at houtcome
    rw [houtcome]
    refine ⟨⟨fun _ => hfits, fun _ => rfl⟩, fun _ later => ?_, by simp⟩
    exact get_fst_of_find? (find?_replace hopen now _) later

/-- A document with a character of two units before a line break of two characters. -/
def brokenLine : StoreEntry :=
  { uri := ⟨"file:///a"⟩
    document := { text := "a😀\r\nb", language := "html", version := 1 }
    lastUsed := 0 }

/-- Edits that take that character and the line break away, put another line after the text, and
join the first line with the second. -/
def brokenLineEdits : List Edit := [⟨1, 4, "x\n"⟩, ⟨4, 4, "\r\n😀"⟩, ⟨2, 3, ""⟩]

theorem change_reports_brokenLine :
    let s : Store := { entries := [brokenLine], capacity := 1, maxSize := 9 }
    let outcome := s.change 1 brokenLine.uri 2
      (Edit.reports brokenLine.document.text.toList brokenLineEdits)
    s.find? brokenLine.uri = some brokenLine ∧
    Edit.AllAllowed brokenLine.document.text.toList brokenLineEdits ∧
    outcome.1 = true ∧
    (outcome.2.get 2 brokenLine.uri).1 = some ⟨"axb\r\n😀", "html", 2⟩ := by
  intro s outcome
  have hopen : s.find? brokenLine.uri = some brokenLine := by decide
  have hedits : Edit.AllAllowed brokenLine.document.text.toList brokenLineEdits := by
    decide +kernel
  obtain ⟨haccepted, hget, _⟩ :=
    change_reports s 1 brokenLine.uri 2 brokenLine brokenLineEdits hopen hedits
  have htrue := haccepted.mpr (by decide +kernel)
  exact ⟨hopen, hedits, htrue, (hget htrue 2).trans (by decide +kernel)⟩

end Store

end Shorthand.Editor
