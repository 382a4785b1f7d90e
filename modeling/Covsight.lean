import Covsight.Ncdb.Reports
import Covsight.Ncdb.Theorems.Attribution
import Covsight.Ncdb.Theorems.BinSignatures
import Covsight.Ncdb.Theorems.BucketTruth
import Covsight.Ncdb.Theorems.CpuTimes
import Covsight.Ncdb.Theorems.DfsCache
import Covsight.Ncdb.Theorems.Fsm
import Covsight.Ncdb.Theorems.HistoryLoading
import Covsight.Ncdb.Theorems.LazyRead
import Covsight.Ncdb.Theorems.LazyWrite
import Covsight.Ncdb.Theorems.MergeAlgebra
import Covsight.Ncdb.Theorems.MergeV2History
import Covsight.Ncdb.Theorems.RegistryRuns
import Covsight.Ncdb.Theorems.RunNames
import Covsight.Ncdb.Theorems.SchemaHash
import Covsight.Ncdb.Theorems.ContribIndex
import Covsight.Ncdb.Theorems.Templates
import Covsight.Ncdb.Theorems.TestplanQueries
import Covsight.Ncdb.Theorems.Waivers
import Covsight.Ncdb.Theorems.TestplanImports
import Covsight.NcdbC.Theorems.Attachments
import Covsight.NcdbC.Theorems.CountsCodec
import Covsight.NcdbC.Theorems.CrossReadable
import Covsight.NcdbC.Theorems.HistoryCrossRead
import Covsight.NcdbC.Theorems.IssuesHistory
import Covsight.NcdbC.Manifest
import Covsight.NcdbC.Theorems.Lookup
import Covsight.NcdbC.TypedTables
import Covsight.NcdbC.Varint
import Covsight.NcdbC.Theorems.MemberDecoders
import Covsight.NcdbTs.Theorems.IssuesHistory
import Covsight.NcdbTs.Theorems.Resave
import Covsight.NcdbTs.Theorems.StringTables
import Covsight.Parquet.Theorems.BinQueries
import Covsight.Parquet.Theorems.RunIds
import Covsight.UcisWriter.Theorems.Closing
import Covsight.UcisWriter.Theorems.Cvg
import Covsight.UcisWriter.Theorems.Tables
import Covsight.UcisXml.Arena
import Covsight.UcisXml.Buf
import Covsight.UcisXml.Theorems.Branch
import Covsight.UcisXml.Theorems.Doc
import Covsight.Xml.Theorems.Reader


