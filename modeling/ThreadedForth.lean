import ThreadedForth.Main
import ThreadedForth.Utf8
import ThreadedForth.Proofs.EntryCursor
import ThreadedForth.Proofs.Insensitivity
import ThreadedForth.Proofs.RawSession
import ThreadedForth.Proofs.Refusal
import ThreadedForth.Proofs.Restart
import ThreadedForth.Proofs.Growth
import ThreadedForth.Proofs.FreeRun
import ThreadedForth.Proofs.Lines
import ThreadedForth.Proofs.CommandLine
import ThreadedForth.Proofs.Transparency
import ThreadedForth.Proofs.Unextended
import ThreadedForth.Proofs.Footprint
import ThreadedForth.Proofs.Layout
import ThreadedForth.Proofs.Building
import ThreadedForth.Proofs.CountedString
import ThreadedForth.Proofs.Invocation
import ThreadedForth.Proofs.Indexing
import ThreadedForth.Proofs.Division
import ThreadedForth.Proofs.Branching
import ThreadedForth.Proofs.Recursion
import ThreadedForth.Proofs.Numeral
import ThreadedForth.Proofs.Expansion
import ThreadedForth.Proofs.Resolution
import ThreadedForth.Proofs.Comparison
import ThreadedForth.Proofs.Alignment
