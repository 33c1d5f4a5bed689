import Multicorn.Alchemy.Execute
import Multicorn.Alchemy.Write
import Multicorn.Catalog.Wrapper
import Multicorn.Convert.ArrayRoundTrip
import Multicorn.Convert.Hstore
import Multicorn.Convert.Scalar
import Multicorn.Convert.Tuple
import Multicorn.Docutils.LruCache
import Multicorn.Executor.NestLoop
import Multicorn.Fs.Accounted
import Multicorn.Fs.Agreement
import Multicorn.Fs.Descriptors
import Multicorn.Fs.FailedCommit
import Multicorn.Fs.FailedOpen
import Multicorn.Fs.FormatGrammar
import Multicorn.Fs.Inversion
import Multicorn.Fs.Listings
import Multicorn.Fs.ReadBack
import Multicorn.Fs.Rollback
import Multicorn.Fs.Root
import Multicorn.Fs.Transactions
import Multicorn.Imap.Criteria
import Multicorn.Imap.Fetch
import Multicorn.Import.Statement
import Multicorn.Ldap.Matching
import Multicorn.Modify.Insert
import Multicorn.Modify.NullFlags
import Multicorn.Planner.Estimates
import Multicorn.Planner.QualSoundness
import Multicorn.Xact.Failures
import Multicorn.Xact.Fresh
import Multicorn.Xact.Prepare
import Multicorn.Xact.Runs
import Multicorn.Xact.SubFailure
import Multicorn.Xml.Rows
