import Templates.Draft
import Templates.Proofs.CacheHistory
import Templates.Proofs.DocumentReading
import Templates.Proofs.EndlessPasses
import Templates.Proofs.Folders
import Templates.Proofs.HiddenCache
import Templates.Proofs.RequestForms
import Templates.Proofs.Supersession
import Templates.Proofs.TagLaws
import Templates.Settings.Reading
import Templates.Proofs.Routing
import Templates.Proofs.InsertedComments
import Templates.Proofs.Answers
import Templates.Proofs.CacheEffects
import Templates.Proofs.MissingEnds
import Templates.Proofs.TextKept
import Templates.Proofs.FailingLines
import Templates.Proofs.LongFormAgain
import Templates.Proofs.DecodedLines
import Templates.Proofs.Retagging
import Templates.Proofs.Sessions
import Templates.Proofs.Registrations
import Templates.Proofs.Spellings
import Templates.Proofs.Offsets
import Templates.Proofs.PartCalls
import Templates.Proofs.ValidOffsets
import Templates.Proofs.Freshness
