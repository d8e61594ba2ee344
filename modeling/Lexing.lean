import Lexing.Settings.Load
import Lexing.Proofs.CharSet.Listing
import Lexing.Proofs.Chars.Runs
import Lexing.Proofs.Choice.Independent
import Lexing.Proofs.Choice.Seek
import Lexing.Proofs.Words.Spelling
import Lexing.Proofs.Chain.WholeGroups
import Lexing.Proofs.Cursor.Lines
import Lexing.Proofs.Token.Forest
import Lexing.Proofs.Scanner.Opened
import Lexing.Proofs.Scanner.Starts
import Lexing.Proofs.Tokenizer.Escapes
import Lexing.Proofs.Tokenizer.OnePass
import Lexing.Proofs.Settings.Proper
import Lexing.Proofs.Settings.RoundTrip
import Lexing.Proofs.Settings.Slices
import Lexing.Proofs.Settings.Bounded
