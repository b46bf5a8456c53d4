import CasperTapcp.Platform.Word
import CasperTapcp.Codec.Hex
import CasperTapcp.Platform.Machine
import CasperTapcp.Read.FpgaWordsBinary
import CasperTapcp.Read.HexDump
import CasperTapcp.Read.CpuBytes
import CasperTapcp.Read.MemDump
import CasperTapcp.Read.DumpSchedule
import CasperTapcp.Read.Listdev
import CasperTapcp.Write.FpgaWordsBinary
import CasperTapcp.Write.FpgaWordsAscii
import CasperTapcp.Write.LineWriter
import CasperTapcp.Write.DumpRoundTrip
import CasperTapcp.Open.Openers
import CasperTapcp.Open.Bounds
import CasperTapcp.Open.Grammar
import CasperTapcp.Write.TextWords
import CasperTapcp.Write.ReadRestore
import CasperTapcp.Open.Copy
