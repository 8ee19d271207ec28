import Docx2Typed.Prose.ParagraphIds.Document
import Docx2Typed.Prose.ParagraphIds.Part

/-!
# Does a paragraph id name one paragraph?

`(part, paragraph id)` is the address every edit uses, and every lookup takes the first match.
The ids of one part are distinct exactly when no text box of the document holds two paragraphs
with the same number under different parents, and, in a header or footer, when no two stray cell
paragraphs meet the same counters after a table that closed itself.
-/

namespace Docx2Typed

theorem paragraphIds_nodup_iff (xml : Bytes) :
    (∀ located, scanDocument xml = .ok located →
      ((located.map (·.1)).Nodup ↔ TextBoxOrdinalsApart xml)) ∧
    ∀ partKey located, scanPart xml partKey = .ok located →
      ((located.map (·.1)).Nodup ↔ StrayCellsApart xml partKey) :=
  ⟨fun _ h => scanDocument_nodup_iff h, fun _ _ h => scanPart_nodup_iff h⟩

/-- A text box with two plain paragraphs, and a header with one table. -/
def textBoxDocument : Bytes :=
  bytes "<w:document><w:body><w:p><w:r><w:txbxContent><w:p></w:p><w:p></w:p></w:txbxContent></w:r></w:p></w:body></w:document>"

def tableHeader : Bytes :=
  bytes "<w:hdr><w:tbl><w:tr><w:tc><w:p></w:p><w:p></w:p></w:tc></w:tr></w:tbl><w:p></w:p></w:hdr>"

theorem paragraphIds_nodup_examples :
    (∃ located, scanDocument textBoxDocument = .ok located ∧
      ((located.map (·.1)).Nodup ↔ TextBoxOrdinalsApart textBoxDocument) ∧
      TextBoxOrdinalsApart textBoxDocument) ∧
    ∃ located, scanPart tableHeader "header1" = .ok located ∧
      ((located.map (·.1)).Nodup ↔ StrayCellsApart tableHeader "header1") ∧
      StrayCellsApart tableHeader "header1" := by
  have hdoc : scanDocument textBoxDocument =
      .ok [("B0.P0", 45, 56), ("B0.P1", 56, 67), ("P0", 20, 95)] := by
    rw [textBoxDocument, bytes_ofList]
    decide +kernel
  have hpart : scanPart tableHeader "header1" =
      .ok [("header1.P0", 70, 81), ("header1.T0.R0.C0.P0", 26, 37),
        ("header1.T0.R0.C0.P1", 37, 48)] := by
    rw [tableHeader, bytes_ofList]
    decide +kernel
  have hboxes : TextBoxOrdinalsApart textBoxDocument := by
    rw [textBoxDocument, bytes_ofList]
    decide +kernel
  have hcells : StrayCellsApart tableHeader "header1" := by
    rw [tableHeader, bytes_ofList]
    decide +kernel
  exact ⟨⟨_, hdoc, (paragraphIds_nodup_iff textBoxDocument).1 _ hdoc, hboxes⟩,
    _, hpart, (paragraphIds_nodup_iff tableHeader).2 _ _ hpart, hcells⟩

/-- A text box whose second paragraph stands in a content control: both are `B0.P0`. -/
def controlInTextBox : Bytes :=
  bytes "<w:document><w:body><w:p><w:r><w:txbxContent><w:p></w:p><w:sdt><w:sdtContent><w:p></w:p></w:sdtContent></w:sdt></w:txbxContent></w:r></w:p></w:body></w:document>"

theorem controlInTextBox_ids_clash :
    ¬ ∀ xml located, scanDocument xml = .ok located → (located.map (·.1)).Nodup := by
  intro h
  have hdoc : scanDocument controlInTextBox =
      .ok [("B0.P0", 45, 56), ("B0.P0", 77, 88), ("P0", 20, 139)] := by
    rw [controlInTextBox, bytes_ofList]
    decide +kernel
  exact absurd (h _ _ hdoc) (by decide)

end Docx2Typed
