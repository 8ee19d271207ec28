import Docx2Typed.XmlWalker.Offsets
import Docx2Typed.Prose.Spelled
import Docx2Typed.Style.Requests
import Docx2Typed.Style.SpanPlan
import Docx2Typed.Style.VerticalPromotion
import Docx2Typed.Draft.SpellingsAgree
import Docx2Typed.Draft.ChangedSpan
import Docx2Typed.Projection.Correspondence
import Docx2Typed.Prose.Anchors
import Docx2Typed.Prose.Synthesis
import Docx2Typed.Tokens.Agreement
import Docx2Typed.Collab.Simultaneous
import Docx2Typed.Collab.Failure
import Docx2Typed.Collab.Chain
import Docx2Typed.Table.Addresses
import Docx2Typed.Table.Cloned
import Docx2Typed.Revision.Editable
import Docx2Typed.Zip.Patched
import Docx2Typed.Store.CherryPick
import Docx2Typed.Store.Blame
import Docx2Typed.Store.Classified
import Docx2Typed.Store.Birth
import Docx2Typed.Store.Guarded
import Docx2Typed.Format.ScannersAgree
import Docx2Typed.Format.Written
import Docx2Typed.Verify.StructureAgreement
import Docx2Typed.Surface.Interrupted
import Docx2Typed.Workdir.Inventory
import Docx2Typed.Surface.EditOutcome
import Docx2Typed.Workdir.BaselineReset
import Docx2Typed.Collab.HistoryKept
import Docx2Typed.WorkspaceIdentity
import Docx2Typed.ResolvePath
import Docx2Typed.Search.Moved
import Docx2Typed.Revision.CommentAnchors
