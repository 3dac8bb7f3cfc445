import LoxLexer.Element
import LoxLexer.Layout
import LoxLexer.Main
import LoxLexer.Proofs.Program.Agreement
import LoxLexer.Proofs.Program.Conversation
import LoxLexer.Proofs.Program.Decoding
import LoxLexer.Proofs.Scan.Blanks
import LoxLexer.Proofs.Scan.Equals
import LoxLexer.Proofs.Scan.Locality
import LoxLexer.Proofs.Scan.Reachable
import LoxLexer.Proofs.Scan.Recovery
import LoxLexer.Proofs.Session
import LoxLexer.Session
