import Docx2Typed.Revision.Inventory
import Docx2Typed.XmlWalker.Dropped

/-!
# The anchors of deleted comments

`delete_comment_bytes` of `govern.rs` takes the anchors of the deleted comment out of the document,
one comment after the other where several are deleted.
-/

namespace Docx2Typed

open List

def commentAnchors : List String := ["commentRangeStart", "commentRangeEnd", "commentReference"]

/-- An anchor or reference of a comment. -/
def isCommentAnchor (commentId : Text) (xml : Bytes) (tag : Tag) : Bool :=
  commentAnchors.contains tag.name && tag.selfClosing &&
    attrValueAt xml tag.start tag.stop "w:id" == some commentId

/-- `strip_comment_anchors`. -/
def stripCommentAnchors (xml : Bytes) (commentId : Text) : Bytes :=
  dropTags (isCommentAnchor commentId) xml

theorem readsOwn_isCommentAnchor (commentId : Text) : ReadsOwn (isCommentAnchor commentId) := by
  refine ⟨fun name _ selfClosing token => commentAnchors.contains name && selfClosing &&
    attrValueAt token 0 token.length "w:id" == some commentId, fun xml tag => ?_⟩
  have hvalue : attrValueAt xml tag.start tag.stop "w:id" =
      attrValueAt (slice xml tag.start tag.stop) 0 (slice xml tag.start tag.stop).length "w:id" := by
    rw [attrValueAt, attrValueAt, slice_whole]
  rw [isCommentAnchor, hvalue]

theorem readsOwn_anyAnchor (ids : List Text) :
    ReadsOwn fun xml tag => ids.any fun commentId => isCommentAnchor commentId xml tag := by
  induction ids with
  | nil => exact ⟨fun _ _ _ _ => false, fun _ _ => rfl⟩
  | cons commentId ids ih => exact (readsOwn_isCommentAnchor commentId).or ih

/-- The anchors of several comments go one comment after the other, or all at once. -/
theorem foldl_stripCommentAnchors (ids : List Text) (xml : Bytes) :
    ids.foldl stripCommentAnchors xml =
      dropTags (fun xml tag => ids.any fun commentId => isCommentAnchor commentId xml tag) xml := by
  induction ids generalizing xml with
  | nil => exact (dropTags_of_none fun _ _ => rfl).symm
  | cons commentId ids ih =>
    rw [foldl_cons, ih, stripCommentAnchors,
      dropTags_dropTags (readsOwn_isCommentAnchor commentId) (readsOwn_anyAnchor ids)]
    rfl

/-- Comments are deleted in any order, and deleting one again changes nothing: the tags that are
left are those that anchor none of them. -/
theorem stripCommentAnchors_run (ids : List Text) (xml : Bytes) :
    tagTokens (ids.foldl stripCommentAnchors xml) =
        ((scanTags xml).filter fun tag =>
          !ids.any fun commentId => isCommentAnchor commentId xml tag).map
            (fun tag => slice xml tag.start tag.stop) ∧
      ∀ ids' : List Text, (∀ commentId, commentId ∈ ids' ↔ commentId ∈ ids) →
        ids'.foldl stripCommentAnchors xml = ids.foldl stripCommentAnchors xml := by
  refine ⟨?_, fun ids' hsame => ?_⟩
  · rw [foldl_stripCommentAnchors, tagTokens_dropTags (readsOwn_anyAnchor ids)]
    rfl
  · rw [foldl_stripCommentAnchors, foldl_stripCommentAnchors]
    refine congrArg (dropTags · xml) (funext fun xml => funext fun tag => ?_)
    rw [Bool.eq_iff_iff, any_eq_true, any_eq_true]
    simp only [hsame]

end Docx2Typed
