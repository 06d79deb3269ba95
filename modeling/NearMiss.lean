import NearMiss.Lexicon.Pool
import NearMiss.EditDistance.Script
import NearMiss.Session
import NearMiss.Proofs.Lookup.Reordered
import NearMiss.Proofs.Session.Wording
import NearMiss.Proofs.Lookup.Wider
import NearMiss.Proofs.Diagnostic
import NearMiss.Proofs.Lookup.Growth
import NearMiss.Proofs.EditDistance.Affix
import NearMiss.Proofs.EditDistance.Exchange
import NearMiss.Proofs.EditDistance.Triangle
import NearMiss.Proofs.EditDistance.Checked
import NearMiss.Proofs.Contest.Stream
import NearMiss.Proofs.Lexicon.Room
import NearMiss.Proofs.HeaderIndex.Needed
import NearMiss.Proofs.Candidate.Enclosing
import NearMiss.Proofs.Candidate.Preorder
import NearMiss.Proofs.Candidate.Visits
import NearMiss.Proofs.Lexicon.Slots
